import Beelzebub.Memory.Paging

/-!
# Mapping a page

`MapPageInternal` goes down the tables of an address, creates those that are missing, and
stores the entry of the page in the last one.
-/

namespace Beelzebub.Memory

open VmmArc PmlEntry

namespace Tables

/-! ## The code -/

/-- `Pmm::AllocateFrame(1)`. -/
def allocateTable (t : Tables) : Nat × Tables :=
  let (paddr, pmm) := t.pmm.allocateFrame ._4KiB 1
  (paddr, { t with pmm })

/-- `memset(table, 0, PageSize)`. -/
def clear (f : Nat) (t : Tables) : Tables := { t with mem := Radix.fill t.mem f 0 }

/-- The part of `MapPageInternal` that makes sure of a PML2.  It ends with what is left if
there is no memory for it. -/
def reachPml2 (root vaddr : Nat) (t : Tables) : Except Tables Tables :=
  if getPresent (t.mem root (getPml4Index vaddr)) = false then
    let (newPml3, t) := t.allocateTable
    if newPml3 = 0 then .error t
    else
      let t := t.store root (getPml4Index vaddr) (PmlEntry.table newPml3)
      let (newPml2, t) := t.allocateTable
      if newPml2 = 0 then .error { t with pmm := (t.pmm.freeFrame newPml3 true).2 }
      else
        let t := t.clear (t.pml3p root vaddr)
        let t := t.store (t.pml3p root vaddr) (getPml3Index vaddr) (PmlEntry.table newPml2)
        .ok (t.clear (t.pml2p root vaddr))
  else if getPresent (t.mem (t.pml3p root vaddr) (getPml3Index vaddr)) = false then
    let (newPml2, t) := t.allocateTable
    if newPml2 = 0 then .error t
    else
      let t := t.store (t.pml3p root vaddr) (getPml3Index vaddr) (PmlEntry.table newPml2)
      .ok (t.clear (t.pml2p root vaddr))
  else .ok t

/-- The part of `MapPageInternal` from `do_pml2e` on. -/
def enterPage (nx : Bool) (root vaddr paddr : Nat) (size : FrameSize) (flags : MemoryFlags)
    (t : Tables) : HandleResult × Tables :=
  if getPresent (t.mem (t.pml2p root vaddr) (getPml2Index vaddr)) = false then
    if size = ._4KiB then
      let (newPml1, t) := t.allocateTable
      if newPml1 = 0 then (.outOfMemory, t)
      else
        let t := t.store (t.pml2p root vaddr) (getPml2Index vaddr) (PmlEntry.table newPml1)
        let t := t.clear (t.pml1p root vaddr)
        (.okay, t.store (t.pml1p root vaddr) (getPml1Index vaddr) (page nx paddr flags false))
    else
      (.okay, t.store (t.pml2p root vaddr) (getPml2Index vaddr) (page nx paddr flags true))
  else if getPresent (t.mem (t.pml1p root vaddr) (getPml1Index vaddr)) then (.pageMapped, t)
  else if size = ._4KiB then
    (.okay, t.store (t.pml1p root vaddr) (getPml1Index vaddr) (page nx paddr flags false))
  else (.pageMapped, t)

/-- `MapPageInternal` in the tables below a topmost one. -/
def mapPageInternal (nx : Bool) (root vaddr paddr : Nat) (size : FrameSize) (flags : MemoryFlags)
    (t : Tables) : HandleResult × Tables :=
  match t.reachPml2 root vaddr with
  | .error t => (.outOfMemory, t)
  | .ok t => t.enterPage nx root vaddr paddr size flags

def is4KiBAligned (val : Nat) : Bool := val % pageSize == 0
def is2MiBAligned (val : Nat) : Bool := val % largePageSize == 0

/-- The check of the addresses for a frame size.  It does not return for the sizes that the
architecture lacks. -/
def checkAlignment (vaddr paddr : Nat) : FrameSize → Option HandleResult
  | ._4KiB => some (if is4KiBAligned vaddr && is4KiBAligned paddr then .okay else .alignmentFailure)
  | ._2MiB => some (if is2MiBAligned vaddr && is2MiBAligned paddr then .okay else .alignmentFailure)
  | ._64KiB | ._4MiB | ._1GiB => none

/-- `Vmm::MapPage` for the process with the given paging table. -/
def mapPage (as : AddressSpaces) (nx : Bool) (pagingTable vaddr paddr : Nat) (size : FrameSize)
    (flags : MemoryFlags) (countReferences : Bool) (t : Tables) : Option (HandleResult × Tables) :=
  if Illegal vaddr then some (.pageMapIllegalRange, t)
  else
    (checkAlignment vaddr paddr size).map fun aligned =>
      if aligned ≠ .okay then (aligned, t)
      else
        let (res, t) := t.mapPageInternal nx (as.root (Space.ofAddress pagingTable vaddr)) vaddr
          paddr size flags
        if res ≠ .okay then (res, t)
        else if countReferences then
          let (res, pmm) := t.pmm.adjustReferenceCount paddr 1
          -- the page may not be in an allocation space
          (if res = .pagesOutOfAllocatorRange then .okay else res, { t with pmm })
        else (.okay, t)

/-! ## Growth -/

/-- Tables were added, and nothing else has changed. -/
structure Grown (as : AddressSpaces) (t t' : Tables) : Prop where
  grounded : t'.Grounded as
  leaf : ∀ {s p i}, as.forest.valid s (p ++ [i]) → t'.leaf as s p i = t.leaf as s p i
  tables : ∀ {s p i f}, as.forest.Holds link t.mem s p i f → as.forest.Holds link t'.mem s p i f
  frames : ∀ f, t'.mem f = t.mem f ∨ ∃ s p i, as.forest.Holds link t'.mem s p i f
  keeps : ∀ a, t'.pmm.FreeAt a → t.pmm.FreeAt a
  fresh : ∀ {s p i f}, as.forest.Holds link t'.mem s p i f →
    as.forest.Holds link t.mem s p i f ∨ t.pmm.FreeAt f

variable {t t' t'' : Tables} {as : AddressSpaces} {s s' : Space} {p q : List Nat}
  {i j f n v paddr : Nat} {pmm pmm' : Pmm} {nx : Bool} {size : FrameSize} {flags : MemoryFlags}

theorem Grown.refl (h : t.Grounded as) : Grown as t t :=
  ⟨h, fun _ => rfl, fun hpos => hpos, fun _ => Or.inl rfl, fun _ hfree => hfree,
    Or.inl⟩

theorem Grown.trans (h : Grown as t t') (h' : Grown as t' t'') : Grown as t t'' where
  grounded := h'.grounded
  leaf hvalid := (h'.leaf hvalid).trans (h.leaf hvalid)
  tables hpos := h'.tables (h.tables hpos)
  frames f := by
    rcases h'.frames f with heq | htable
    · rcases h.frames f with heq' | ⟨s, p, i, hpos⟩
      · exact Or.inl (heq.trans heq')
      · exact Or.inr ⟨s, p, i, h'.tables hpos⟩
    · exact Or.inr htable
  keeps a hfree := h.keeps a (h'.keeps a hfree)
  fresh hpos := by
    rcases h'.fresh hpos with hold | hfree
    · exact h.fresh hold
    · exact Or.inr (h.keeps _ hfree)

/-- New tables show no pages. -/
theorem Grown.wf (h : Grown as t t') (hwf : t.Wf as) : t'.Wf as := by
  refine h.grounded.wf ?_
  intro s p i e hvalid hleaf hfree
  rw [h.leaf hvalid] at hleaf
  obtain ⟨f, htable, rfl, hpresent, -⟩ := leaf_eq_some.mp hleaf
  exact hwf.noDangling ⟨hvalid, htable⟩ hpresent (h.keeps _ hfree)

theorem grown_hang (h : t.Grounded as) (hpos : as.forest.Holds link t.mem s p i f) (hp : p.length ≤ 2)
    (hfree : getPresent (t.mem f i) = false) (hsound : pmm.Sound)
    (htakes : Pmm.Takes t.pmm pmm { address := n, size := ._4KiB } 1) :
    Grown as t (t.hang f i n pmm) := by
  have htables : ∀ {s' q j f'}, as.forest.Holds link t.mem s' q j f' →
      as.forest.Holds link (t.hang f i n pmm).mem s' q j f' := by
    intro s' q j f' hpos'
    have htable := tableAt_hang h hpos hfree hsound htakes hpos'.1
    rw [if_neg] at htable
    · exact ⟨hpos'.1, htable.trans hpos'.2⟩
    · rintro ⟨rfl, rfl⟩
      have hnone : t.tableAt as s' (p ++ [i]) = none := by
        rw [tableAt_snoc, show t.tableAt as s' p = some f from hpos.2, Option.bind_some,
          link_of_not_present hfree]
      have hsome : t.tableAt as s' (p ++ [i]) = some f' := hpos'.2
      rw [hnone] at hsome
      cases hsome
  refine ⟨Grounded.hang h hpos hfree hsound htakes, leaf_hang h hpos hp hfree hsound htakes,
    htables, fun f' => ?_, htakes.keeps, fun hpos' => ?_⟩
  rotate_left
  · rcases holds_hang h hpos hfree hsound htakes hpos' with
      ⟨-, -, rfl, -⟩ | ⟨rfl, rfl, rfl, rfl, -⟩ | ⟨hold, -⟩
    · exact Or.inr (htakes.free _ ⟨Nat.le_refl _, by simp [FrameSize.bytes]⟩)
    · exact Or.inl hpos
    · exact Or.inl hold
  by_cases hnew : f' = n
  · subst hnew
    obtain ⟨hknown, hlength, hindex, hhead⟩ := hpos.1
    have hvalid : as.forest.valid s (p ++ [i] ++ [0]) := by
      refine ⟨hknown, by simp; omega, fun k hk => ?_, fun k hk => hhead k ?_⟩
      · rcases List.mem_append.mp hk with hk | hk
        · exact hindex k hk
        · rw [List.mem_singleton.mp hk]
          decide
      · rw [List.head?_append_of_ne_nil _ (by simp)] at hk
        exact hk
    refine Or.inr ⟨s, p ++ [i], 0, hvalid, ?_⟩
    have htable := tableAt_hang h hpos hfree hsound htakes hvalid
    rwa [if_pos ⟨rfl, rfl⟩] at htable
  · by_cases hat : f' = f
    · exact Or.inr ⟨s, p, i, hat ▸ htables hpos⟩
    · refine Or.inl (funext fun k => ?_)
      show Radix.attach t.mem f i (PmlEntry.table n) n 0 f' k = t.mem f' k
      rw [Radix.attach_apply, if_neg hnew, if_neg fun hk => hat hk.1]

/-- The translations of a grown state are the same. -/
theorem Grown.translate (h : Grown as t t') (hshaped : t.Shaped as) (hs : as.Known s)
    (hv : s.Covers v) :
    t'.translate (as.root s) v = t.translate (as.root s) v := by
  have hvalid := AddressSpaces.valid_indices hs hv
  have hsmall := h.leaf (p := [getPml4Index v, getPml3Index v, getPml2Index v]) hvalid
  have hlarge := h.leaf (p := [getPml4Index v, getPml3Index v])
    (as.forest.valid_of_append (q := [getPml1Index v]) (by simp) hvalid)
  rw [translate_eq h.grounded.toShaped hs hv, translate_eq hshaped hs hv, hsmall, hlarge]

/-! ## Reaching the last table -/

/-- Allocates this many tables. -/
def grant : Nat → Pmm → Option Pmm
  | 0, pmm => some pmm
  | n + 1, pmm =>
      let (paddr, pmm) := pmm.allocateFrame ._4KiB 1
      if paddr = 0 then none else grant n pmm

/-- The entry at the given level is present. -/
def HasPml4e (t : Tables) (root v : Nat) : Prop :=
  getPresent (t.mem root (getPml4Index v)) = true

def HasPml3e (t : Tables) (root v : Nat) : Prop :=
  getPresent (t.mem (t.pml3p root v) (getPml3Index v)) = true

def HasPml2e (t : Tables) (root v : Nat) : Prop :=
  getPresent (t.mem (t.pml2p root v) (getPml2Index v)) = true

def HasPml1e (t : Tables) (root v : Nat) : Prop :=
  getPresent (t.mem (t.pml1p root v) (getPml1Index v)) = true

/-- The PML2 entry maps a large page. -/
def IsLarge (t : Tables) (root v : Nat) : Prop :=
  getPageSize (t.mem (t.pml2p root v) (getPml2Index v)) = true

instance (t : Tables) (root v : Nat) : Decidable (t.HasPml4e root v) :=
  inferInstanceAs (Decidable (_ = _))

instance (t : Tables) (root v : Nat) : Decidable (t.HasPml3e root v) :=
  inferInstanceAs (Decidable (_ = _))

instance (t : Tables) (root v : Nat) : Decidable (t.HasPml2e root v) :=
  inferInstanceAs (Decidable (_ = _))

instance (t : Tables) (root v : Nat) : Decidable (t.HasPml1e root v) :=
  inferInstanceAs (Decidable (_ = _))

instance (t : Tables) (root v : Nat) : Decidable (t.IsLarge root v) :=
  inferInstanceAs (Decidable (_ = _))

/-- How many tables are missing above the PML2 entry. -/
def missing (t : Tables) (root v : Nat) : Nat :=
  if ¬t.HasPml4e root v then 2 else if ¬t.HasPml3e root v then 1 else 0

/-- There is memory for a PML3, but not for the PML2 below it. -/
def Torn (t : Tables) (root v : Nat) : Prop :=
  ¬t.HasPml4e root v ∧ (grant 1 t.pmm).isSome ∧ grant 2 t.pmm = none

instance (t : Tables) (root v : Nat) : Decidable (t.Torn root v) :=
  inferInstanceAs (Decidable (_ ∧ _ ∧ _))

/-- An allocation that fails changes nothing, and one that succeeds is granted. -/
theorem allocateTable_cases (hsound : t.pmm.Sound) :
    (t.allocateTable = (0, t) ∧ ∀ k, grant (k + 1) t.pmm = none) ∨
      ∃ n pmm, n ≠ 0 ∧ t.allocateTable = (n, { t with pmm }) ∧ IsFrame n ∧ pmm.Sound ∧
        Pmm.Takes t.pmm pmm { address := n, size := ._4KiB } 1 ∧
        ∀ k, grant (k + 1) t.pmm = grant k pmm := by
  obtain ⟨hsound', ⟨hzero, hsame⟩ | ⟨hne, htakes⟩⟩ := hsound.allocateFrame ._4KiB 1
  · refine Or.inl ⟨?_, fun k => ?_⟩
    · unfold allocateTable
      simp only [hzero, hsame]
    · rw [grant]
      simp only [hzero, if_true]
  · refine Or.inr ⟨_, (t.pmm.allocateFrame ._4KiB 1).2, hne, rfl,
      isFrame_of_takes hsound' htakes, hsound', htakes, fun k => ?_⟩
    rw [grant]
    simp only [if_neg hne]

theorem not_present {b : Bool} (h : ¬b = true) : b = false := by
  cases b
  · rfl
  · exact absurd rfl h

section Reach

variable (h : t.Grounded as) (hs : as.Known s) (hv : s.Covers v)

include h hs hv

/-- Hanging a PML3. -/
theorem hang_pml3 (h4 : ¬t.HasPml4e (as.root s) v) (hsound : pmm.Sound)
    (htakes : Pmm.Takes t.pmm pmm { address := n, size := ._4KiB } 1) :
    Grown as t (t.hang (as.root s) (getPml4Index v) n pmm) ∧
      (t.hang (as.root s) (getPml4Index v) n pmm).HasPml4e (as.root s) v ∧
      (t.hang (as.root s) (getPml4Index v) n pmm).pml3p (as.root s) v = n ∧
      ¬(t.hang (as.root s) (getPml4Index v) n pmm).HasPml3e (as.root s) v := by
  have hpos := holds_pml4 (t := t) hs hv
  have hne := unused_of_takes h htakes hpos
  have hframe := isFrame_of_takes hsound htakes
  have hword : (t.hang (as.root s) (getPml4Index v) n pmm).mem (as.root s) (getPml4Index v) =
      PmlEntry.table n := by
    show Radix.attach .. = _
    rw [Radix.attach_apply, if_neg hne, if_pos ⟨rfl, rfl⟩]
  have hpml3p : (t.hang (as.root s) (getPml4Index v) n pmm).pml3p (as.root s) v = n := by
    rw [pml3p, hword, getAddress_table hframe]
  refine ⟨grown_hang h hpos (by simp) (not_present h4) hsound htakes, ?_, hpml3p, ?_⟩
  · rw [HasPml4e, hword, getPresent_table]
  · have hzero : (t.hang (as.root s) (getPml4Index v) n pmm).mem n (getPml3Index v) = 0 := by
      show Radix.attach .. = _
      rw [Radix.attach_apply, if_pos rfl]
    rw [HasPml3e, hpml3p, hzero]
    simp

/-- The entry for a PML2 is stored next to the one for the PML3. -/
theorem pml4e_ne (h4 : t.HasPml4e (as.root s) v) :
    ¬(as.root s = t.pml3p (as.root s) v ∧ getPml4Index v = getPml3Index v) := by
  rintro ⟨hroot, hindex⟩
  have hpos4 := holds_pml4 (t := t) hs hv
  have hpos := holds_pml3 h.toShaped hs hv h4
  rw [hroot, hindex] at hpos4
  cases (h.separate hpos4 (hindex ▸ hpos)).2

/-- Hanging a PML2. -/
theorem hang_pml2 (h4 : t.HasPml4e (as.root s) v) (h3 : ¬t.HasPml3e (as.root s) v)
    (hsound : pmm.Sound)
    (htakes : Pmm.Takes t.pmm pmm { address := n, size := ._4KiB } 1) :
    Grown as t (t.hang (t.pml3p (as.root s) v) (getPml3Index v) n pmm) ∧
      (t.hang (t.pml3p (as.root s) v) (getPml3Index v) n pmm).HasPml4e (as.root s) v ∧
      (t.hang (t.pml3p (as.root s) v) (getPml3Index v) n pmm).HasPml3e (as.root s) v ∧
      (t.hang (t.pml3p (as.root s) v) (getPml3Index v) n pmm).pml2p (as.root s) v = n ∧
      ¬(t.hang (t.pml3p (as.root s) v) (getPml3Index v) n pmm).HasPml2e (as.root s) v := by
  have hpos4 := holds_pml4 (t := t) hs hv
  have hpos := holds_pml3 h.toShaped hs hv h4
  have hne4 := unused_of_takes h htakes hpos4
  have hne := unused_of_takes h htakes hpos
  have hframe := isFrame_of_takes hsound htakes
  have hother := pml4e_ne h hs hv h4
  have hword4 : (t.hang (t.pml3p (as.root s) v) (getPml3Index v) n pmm).mem (as.root s)
      (getPml4Index v) = t.mem (as.root s) (getPml4Index v) := by
    show Radix.attach .. = _
    rw [Radix.attach_apply, if_neg hne4, if_neg hother]
  have hpml3p : (t.hang (t.pml3p (as.root s) v) (getPml3Index v) n pmm).pml3p (as.root s) v =
      t.pml3p (as.root s) v := by
    rw [pml3p, hword4]
    rfl
  have hword : (t.hang (t.pml3p (as.root s) v) (getPml3Index v) n pmm).mem
      (t.pml3p (as.root s) v) (getPml3Index v) = PmlEntry.table n := by
    show Radix.attach .. = _
    rw [Radix.attach_apply, if_neg hne, if_pos ⟨rfl, rfl⟩]
  have hpml2p : (t.hang (t.pml3p (as.root s) v) (getPml3Index v) n pmm).pml2p (as.root s) v =
      n := by
    rw [pml2p, hpml3p, hword, getAddress_table hframe]
  refine ⟨grown_hang h hpos (by simp) (not_present h3) hsound htakes, ?_, ?_, hpml2p, ?_⟩
  · rw [HasPml4e, hword4]
    exact h4
  · rw [HasPml3e, hpml3p, hword, getPresent_table]
  · have hzero : (t.hang (t.pml3p (as.root s) v) (getPml3Index v) n pmm).mem n (getPml2Index v) =
        0 := by
      show Radix.attach .. = _
      rw [Radix.attach_apply, if_pos rfl]
    rw [HasPml2e, hpml2p, hzero]
    simp

/-- The code hangs a PML2 by storing its entry and clearing what the window then shows. -/
theorem clear_pml2 (h4 : t.HasPml4e (as.root s) v) (hframe : IsFrame n) (pmm : Pmm) :
    Tables.clear
      (({ t with pmm } : Tables).store (t.pml3p (as.root s) v) (getPml3Index v)
        (PmlEntry.table n) |>.pml2p (as.root s) v)
      (({ t with pmm } : Tables).store (t.pml3p (as.root s) v) (getPml3Index v)
        (PmlEntry.table n)) =
      t.hang (t.pml3p (as.root s) v) (getPml3Index v) n pmm := by
  have hpml3p : ∀ e, (({ t with pmm } : Tables).store (t.pml3p (as.root s) v) (getPml3Index v)
      e).pml3p (as.root s) v = t.pml3p (as.root s) v := by
    intro e
    unfold pml3p
    congr 1
    exact Radix.store_of_ne (pml4e_ne h hs hv h4)
  have hpml2p : (({ t with pmm } : Tables).store (t.pml3p (as.root s) v) (getPml3Index v)
      (PmlEntry.table n)).pml2p (as.root s) v = n := by
    rw [pml2p, hpml3p]
    show getAddress (Radix.store ..) = n
    rw [Radix.store_self, getAddress_table hframe]
  rw [hpml2p]
  rfl

omit h hs hv in
/-- The same for a PML3. -/
theorem clear_pml3 (hframe : IsFrame n) (pmm : Pmm) (root : Nat) :
    Tables.clear
      (({ t with pmm } : Tables).store root (getPml4Index v) (PmlEntry.table n) |>.pml3p root v)
      (({ t with pmm } : Tables).store root (getPml4Index v) (PmlEntry.table n)) =
      t.hang root (getPml4Index v) n pmm := by
  have hpml3p : (({ t with pmm } : Tables).store root (getPml4Index v)
      (PmlEntry.table n)).pml3p root v = n := by
    unfold pml3p
    show getAddress (Radix.store ..) = n
    rw [Radix.store_self, getAddress_table hframe]
  rw [hpml3p]
  rfl

/-- The PML2 is reached with the tables that are granted, or the state is as before, unless
the allocator fails in between. -/
theorem reachPml2_cases :
    (∃ t', t.reachPml2 (as.root s) v = .ok t' ∧ Grown as t t' ∧
        grant (t.missing (as.root s) v) t.pmm = some t'.pmm ∧ t'.HasPml4e (as.root s) v ∧
        t'.HasPml3e (as.root s) v ∧
        (t.HasPml4e (as.root s) v ∧ t.HasPml3e (as.root s) v ∧ t' = t ∨
          ¬(t.HasPml4e (as.root s) v ∧ t.HasPml3e (as.root s) v) ∧
          ¬t'.HasPml2e (as.root s) v)) ∨
      (¬t.Torn (as.root s) v ∧ grant (t.missing (as.root s) v) t.pmm = none ∧
        t.reachPml2 (as.root s) v = .error t) ∨
      (t.Torn (as.root s) v ∧ ∃ n pmm, IsFrame n ∧ pmm.FreeAt n ∧ Pmm.Same t.pmm pmm ∧
        t.reachPml2 (as.root s) v =
          .error { (t.store (as.root s) (getPml4Index v) (PmlEntry.table n)) with pmm }) := by
  by_cases h4 : t.HasPml4e (as.root s) v
  · have h4' : ¬getPresent (t.mem (as.root s) (getPml4Index v)) = false := by
      rw [show getPresent (t.mem (as.root s) (getPml4Index v)) = true from h4]
      simp
    by_cases h3 : t.HasPml3e (as.root s) v
    · have h3' : ¬getPresent (t.mem (t.pml3p (as.root s) v) (getPml3Index v)) = false := by
        rw [show getPresent (t.mem (t.pml3p (as.root s) v) (getPml3Index v)) = true from h3]
        simp
      refine Or.inl ⟨t, ?_, .refl h, ?_, h4, h3, Or.inl ⟨h4, h3, rfl⟩⟩
      · rw [reachPml2, if_neg h4', if_neg h3']
      · rw [missing, if_neg (not_not.mpr h4), if_neg (not_not.mpr h3)]
        rfl
    · have hmissing : t.missing (as.root s) v = 1 := by
        rw [missing, if_neg (not_not.mpr h4), if_pos h3]
      rw [reachPml2, if_neg h4', if_pos (not_present h3), hmissing]
      rcases allocateTable_cases h.sound with ⟨hfail, hnone⟩ | ⟨n, pmm, hne, hok, hframe, hsound,
        htakes, hgrant⟩
      · refine Or.inr (Or.inl ⟨fun htorn => htorn.1 h4, hnone 0, ?_⟩)
        simp only [hfail, if_true]
      · obtain ⟨hgrown, hnew4, hnew3, -, hnew2⟩ := hang_pml2 h hs hv h4 h3 hsound htakes
        refine Or.inl ⟨_, ?_, hgrown, hgrant 0, hnew4, hnew3, Or.inr ⟨fun hboth => h3 hboth.2, hnew2⟩⟩
        simp only [hok, if_neg hne]
        exact congrArg Except.ok (clear_pml2 h hs hv h4 hframe pmm)
  · have hmissing : t.missing (as.root s) v = 2 := by rw [missing, if_pos h4]
    rw [reachPml2, if_pos (not_present h4), hmissing]
    rcases allocateTable_cases h.sound with ⟨hfail, hnone⟩ | ⟨n, pmm, hne, hok, hframe, hsound,
      htakes, hgrant⟩
    · refine Or.inr (Or.inl ⟨fun htorn => ?_, hnone 1, ?_⟩)
      · have hsome := htorn.2.1
        rw [hnone 0] at hsome
        cases hsome
      · simp only [hfail, if_true]
    · simp only [hok, if_neg hne]
      -- the second allocation starts from the state with the entry for the PML3
      obtain ⟨hgrown, hnew4, -, hnew3⟩ := hang_pml3 h hs hv h4 hsound htakes
      have hsound₁ : (({ t with pmm } : Tables).store (as.root s) (getPml4Index v)
        (PmlEntry.table n)).pmm.Sound := hsound
      rcases allocateTable_cases hsound₁ with ⟨hfail, hnone⟩ | ⟨n₂, pmm₂, hne₂, hok₂, hframe₂,
        hsound₂, htakes₂, hgrant₂⟩
      · right
        right
        have huse : pmm.Uses { address := n, size := ._4KiB } 1 :=
          (htakes.uses _ _).mpr (Or.inr ⟨rfl, rfl⟩)
        obtain ⟨-, hfreed, hdrops⟩ := hsound.freeFrame huse
        refine ⟨⟨h4, by rw [hgrant 0]; rfl, by rw [hgrant 1]; exact hnone 0⟩, n, _, hframe,
          hdrops.free n ⟨Nat.le_refl _, by simp [FrameSize.bytes]⟩,
          htakes.same_of_drops h.sound hfreed hdrops, ?_⟩
        simp only [hfail, if_true]
        rfl
      · obtain ⟨hgrown₂, hnew4₂, hnew3₂, -, hnew2₂⟩ :=
          hang_pml2 hgrown.grounded hs hv hnew4 hnew3 hsound₂ htakes₂
        refine Or.inl ⟨_, ?_, hgrown.trans hgrown₂, ?_, hnew4₂, hnew3₂,
          Or.inr ⟨fun hboth => h4 hboth.1, hnew2₂⟩⟩
        · simp only [hok₂, if_neg hne₂]
          have hclear3 := clear_pml3 (t := t) (v := v) hframe pmm₂ (as.root s)
          have hclear2 := clear_pml2 hgrown.grounded hs hv hnew4 hframe₂ pmm₂
          refine congrArg Except.ok (Eq.trans ?_ hclear2)
          rw [show ({ ({ t with pmm } : Tables).store (as.root s) (getPml4Index v)
            (PmlEntry.table n) with pmm := pmm₂ } : Tables) = ({ t with pmm := pmm₂ } : Tables).store
              (as.root s) (getPml4Index v) (PmlEntry.table n) from rfl, hclear3]
          rfl
        · rw [hgrant 1]
          exact hgrant₂ 0

/-- Hanging a PML1. -/
theorem hang_pml1 (h4 : t.HasPml4e (as.root s) v) (h3 : t.HasPml3e (as.root s) v)
    (h2 : ¬t.HasPml2e (as.root s) v) (hsound : pmm.Sound)
    (htakes : Pmm.Takes t.pmm pmm { address := n, size := ._4KiB } 1) :
    Grown as t (t.hang (t.pml2p (as.root s) v) (getPml2Index v) n pmm) ∧
      as.forest.Holds link (t.hang (t.pml2p (as.root s) v) (getPml2Index v) n pmm).mem s
        [getPml4Index v, getPml3Index v, getPml2Index v] (getPml1Index v) n ∧
      (t.hang (t.pml2p (as.root s) v) (getPml2Index v) n pmm).mem n (getPml1Index v) = 0 := by
  have hpos := holds_pml2 h.toShaped hs hv h4 h3
  have hvalid := AddressSpaces.valid_indices hs hv
  refine ⟨grown_hang h hpos (by simp) (not_present h2) hsound htakes, ⟨hvalid, ?_⟩, ?_⟩
  · have htable := tableAt_hang h hpos (not_present h2) hsound htakes
      (q := [getPml4Index v, getPml3Index v, getPml2Index v]) hvalid
    rwa [if_pos (by simp)] at htable
  · show Radix.attach .. = _
    rw [Radix.attach_apply, if_pos rfl]

/-- The code hangs a PML1 in the same way as a PML2. -/
theorem clear_pml1 (h4 : t.HasPml4e (as.root s) v) (h3 : t.HasPml3e (as.root s) v)
    (hframe : IsFrame n) (hunused : as.forest.Unused link t.mem n) (pmm : Pmm) :
    Tables.clear
      (({ t with pmm } : Tables).store (t.pml2p (as.root s) v) (getPml2Index v)
        (PmlEntry.table n) |>.pml1p (as.root s) v)
      (({ t with pmm } : Tables).store (t.pml2p (as.root s) v) (getPml2Index v)
        (PmlEntry.table n)) =
      t.hang (t.pml2p (as.root s) v) (getPml2Index v) n pmm ∧
      (t.hang (t.pml2p (as.root s) v) (getPml2Index v) n pmm).pml1p (as.root s) v = n := by
  have hpos4 := holds_pml4 (t := t) hs hv
  have hpos3 := holds_pml3 h.toShaped hs hv h4
  have hpos := holds_pml2 h.toShaped hs hv h4 h3
  have hne4 : ¬(as.root s = t.pml2p (as.root s) v ∧ getPml4Index v = getPml2Index v) := by
    rintro ⟨hroot, hindex⟩
    rw [hroot, hindex] at hpos4
    cases (h.separate hpos4 (hindex ▸ hpos)).2
  have hne3 : ¬(t.pml3p (as.root s) v = t.pml2p (as.root s) v ∧
      getPml3Index v = getPml2Index v) := by
    rintro ⟨htable, hindex⟩
    rw [htable, hindex] at hpos3
    cases (h.separate hpos3 (hindex ▸ hpos)).2
  have hwalk : ∀ t' : Tables,
      t'.mem (as.root s) (getPml4Index v) = t.mem (as.root s) (getPml4Index v) →
      t'.mem (t.pml3p (as.root s) v) (getPml3Index v) =
        t.mem (t.pml3p (as.root s) v) (getPml3Index v) →
      t'.mem (t.pml2p (as.root s) v) (getPml2Index v) = PmlEntry.table n →
      t'.pml1p (as.root s) v = n := by
    intro t' hw4 hw3 hw2
    have hpml3p : t'.pml3p (as.root s) v = t.pml3p (as.root s) v := by
      rw [pml3p, hw4]
      rfl
    have hpml2p : t'.pml2p (as.root s) v = t.pml2p (as.root s) v := by
      rw [pml2p, hpml3p, hw3]
      rfl
    rw [pml1p, hpml2p, hw2, getAddress_table hframe]
  constructor
  · have hpml1p : (({ t with pmm } : Tables).store (t.pml2p (as.root s) v) (getPml2Index v)
        (PmlEntry.table n)).pml1p (as.root s) v = n := by
      refine hwalk _ ?_ ?_ ?_
      · rw [mem_store]
        exact Radix.store_of_ne hne4
      · rw [mem_store]
        exact Radix.store_of_ne hne3
      · rw [mem_store]
        exact Radix.store_self ..
    rw [hpml1p]
    rfl
  · refine hwalk _ ?_ ?_ ?_
    · show Radix.attach .. = _
      rw [Radix.attach_apply, if_neg (hunused hpos4), if_neg hne4]
    · show Radix.attach .. = _
      rw [Radix.attach_apply, if_neg (hunused hpos3), if_neg hne3]
    · show Radix.attach .. = _
      rw [Radix.attach_apply, if_neg (hunused hpos), if_pos ⟨rfl, rfl⟩]

end Reach

/-! ## The outcome -/

/-- The indices of the table with the entry for a page, and the index of the entry. -/
def slotPath (v : Nat) : FrameSize → List Nat
  | ._2MiB => [getPml4Index v, getPml3Index v]
  | _ => [getPml4Index v, getPml3Index v, getPml2Index v]

def slotIndex (v : Nat) : FrameSize → Nat
  | ._2MiB => getPml2Index v
  | _ => getPml1Index v

/-- Nothing is mapped in the page, and no table hangs where a large page would be entered. -/
def Vacant (t : Tables) (root v : Nat) (size : FrameSize) : Prop :=
  ¬t.HasPml4e root v ∨ ¬t.HasPml3e root v ∨ ¬t.HasPml2e root v ∨
    size = ._4KiB ∧ ¬t.IsLarge root v ∧ ¬t.HasPml1e root v

instance (t : Tables) (root v : Nat) (size : FrameSize) : Decidable (t.Vacant root v size) :=
  inferInstanceAs (Decidable (_ ∨ _ ∨ _ ∨ _))

/-- A small page is asked for within a large page, and the word of the large page that is
taken for the entry happens not to have the bit for presence. -/
def Misread (t : Tables) (root v : Nat) (size : FrameSize) : Prop :=
  size = ._4KiB ∧ t.HasPml4e root v ∧ t.HasPml3e root v ∧ t.HasPml2e root v ∧
    t.IsLarge root v ∧ ¬t.HasPml1e root v

instance (t : Tables) (root v : Nat) (size : FrameSize) : Decidable (t.Misread root v size) :=
  inferInstanceAs (Decidable (_ ∧ _ ∧ _ ∧ _ ∧ _ ∧ _))

/-- How many tables must be created for a page. -/
def needed (t : Tables) (root v : Nat) (size : FrameSize) : Nat :=
  t.missing root v + if size = ._4KiB ∧
    ¬(t.HasPml4e root v ∧ t.HasPml3e root v ∧ t.HasPml2e root v) then 1 else 0

/-- Tables were added, and then an entry was stored in the slot of a page. -/
structure Entered (as : AddressSpaces) (s : Space) (v : Nat) (size : FrameSize) (e : PmlEntry)
    (t t₁ t' : Tables) (f : Nat) : Prop where
  grown : Grown as t t₁
  slot : as.forest.Holds link t₁.mem s (slotPath v size) (slotIndex v size) f
  vacant : getPresent (t₁.mem f (slotIndex v size)) = false
  entry : t' = t₁.store f (slotIndex v size) e

theorem grant_add (m k : Nat) (pmm : Pmm) : grant (m + k) pmm = (grant m pmm).bind (grant k) := by
  induction m generalizing pmm with
  | zero => rw [Nat.zero_add]; rfl
  | succ m ih =>
      rw [Nat.succ_add, grant, grant]
      simp only
      split
      · rfl
      · exact ih _

section Outcome

variable (h : t.Grounded as) (hs : as.Known s) (hv : s.Covers v)
  (hsize : size = ._4KiB ∨ size = ._2MiB)

include h hs hv hsize

/-- The part after the tables above are there. -/
theorem enterPage_cases (nx : Bool) (paddr : Nat) (flags : MemoryFlags)
    (h4 : t.HasPml4e (as.root s) v) (h3 : t.HasPml3e (as.root s) v) :
    (t.Vacant (as.root s) v size ∧ ∃ t₁ f t',
        t.enterPage nx (as.root s) v paddr size flags = (.okay, t') ∧
        grant (if size = ._4KiB ∧ ¬t.HasPml2e (as.root s) v then 1 else 0) t.pmm = some t₁.pmm ∧
        Entered as s v size (page nx paddr flags (size == ._2MiB)) t t₁ t' f) ∨
      (t.Vacant (as.root s) v size ∧
        grant (if size = ._4KiB ∧ ¬t.HasPml2e (as.root s) v then 1 else 0) t.pmm = none ∧
        t.enterPage nx (as.root s) v paddr size flags = (.outOfMemory, t)) ∨
      (¬t.Vacant (as.root s) v size ∧ ¬t.Misread (as.root s) v size ∧
        t.enterPage nx (as.root s) v paddr size flags = (.pageMapped, t)) ∨
      (t.Misread (as.root s) v size ∧ t.enterPage nx (as.root s) v paddr size flags =
        (.okay, t.store (t.pml1p (as.root s) v) (getPml1Index v) (page nx paddr flags false))) := by
  by_cases h2 : t.HasPml2e (as.root s) v
  · have h2' : ¬getPresent (t.mem (t.pml2p (as.root s) v) (getPml2Index v)) = false := by
      rw [show getPresent (t.mem (t.pml2p (as.root s) v) (getPml2Index v)) = true from h2]
      simp
    have hnone : ¬(size = ._4KiB ∧ ¬t.HasPml2e (as.root s) v) := fun hand => hand.2 h2
    have hvacant : t.Vacant (as.root s) v size ↔
        size = ._4KiB ∧ ¬t.IsLarge (as.root s) v ∧ ¬t.HasPml1e (as.root s) v := by
      simp [Vacant, h4, h3, h2]
    have hmisread : t.Misread (as.root s) v size ↔
        size = ._4KiB ∧ t.IsLarge (as.root s) v ∧ ¬t.HasPml1e (as.root s) v := by
      simp [Misread, h4, h3, h2]
    rw [enterPage, if_neg h2', if_neg hnone, hvacant, hmisread]
    by_cases h1 : t.HasPml1e (as.root s) v
    · have h1' : getPresent (t.mem (t.pml1p (as.root s) v) (getPml1Index v)) = true := h1
      rw [if_pos h1']
      exact Or.inr (Or.inr (Or.inl ⟨fun hv' => hv'.2.2 h1, fun hm => hm.2.2 h1, rfl⟩))
    · have h1' : ¬getPresent (t.mem (t.pml1p (as.root s) v) (getPml1Index v)) = true := h1
      rw [if_neg h1']
      rcases hsize with rfl | rfl
      · rw [if_pos rfl]
        by_cases hlarge : t.IsLarge (as.root s) v
        · exact Or.inr (Or.inr (Or.inr ⟨⟨rfl, hlarge, h1⟩, rfl⟩))
        · refine Or.inl ⟨⟨rfl, hlarge, h1⟩, t, t.pml1p (as.root s) v, _, rfl, rfl, ?_⟩
          exact ⟨.refl h, holds_pml1 h.toShaped hs hv h4 h3 h2 (not_present hlarge),
            not_present h1, rfl⟩
      · exact Or.inr (Or.inr (Or.inl ⟨fun hv' => (nomatch hv'.1),
          fun hm => (nomatch hm.1), rfl⟩))
  · have hvacant : t.Vacant (as.root s) v size := Or.inr (Or.inr (Or.inl h2))
    rw [enterPage, if_pos (not_present h2)]
    rcases hsize with rfl | rfl
    · rw [if_pos rfl, if_pos ⟨rfl, h2⟩]
      rcases allocateTable_cases h.sound with ⟨hfail, hnone⟩ | ⟨n, pmm, hne, hok, hframe, hsound,
        htakes, hgrant⟩
      · refine Or.inr (Or.inl ⟨hvacant, hnone 0, ?_⟩)
        simp only [hfail, if_true]
      · obtain ⟨hgrown, hslot, hzero⟩ := hang_pml1 h hs hv h4 h3 h2 hsound htakes
        obtain ⟨hclear, hpml1p⟩ := clear_pml1 h hs hv h4 h3 hframe (unused_of_takes h htakes) pmm
        refine Or.inl ⟨hvacant, t.hang (t.pml2p (as.root s) v) (getPml2Index v) n pmm, n, _, ?_,
          hgrant 0, hgrown, hslot, ?_, rfl⟩
        · simp only [hok, if_neg hne]
          refine Prod.ext rfl ?_
          show Tables.store (Tables.clear _ _) (Tables.pml1p (Tables.clear _ _) _ _) _ _ = _
          rw [show ({ t with pmm } : Tables).pml2p (as.root s) v = t.pml2p (as.root s) v from rfl,
            hclear, hpml1p]
          rfl
        · rw [show slotIndex v ._4KiB = getPml1Index v from rfl, hzero]
          rfl
    · refine Or.inl ⟨hvacant, t, t.pml2p (as.root s) v, _, rfl, rfl, ?_⟩
      exact ⟨.refl h, holds_pml2 h.toShaped hs hv h4 h3, not_present h2, rfl⟩

/-- What `MapPageInternal` comes to. -/
theorem mapPageInternal_cases (nx : Bool) (paddr : Nat) (flags : MemoryFlags) :
    (t.Vacant (as.root s) v size ∧ ∃ t₁ f t',
        t.mapPageInternal nx (as.root s) v paddr size flags = (.okay, t') ∧
        grant (t.needed (as.root s) v size) t.pmm = some t₁.pmm ∧
        Entered as s v size (page nx paddr flags (size == ._2MiB)) t t₁ t' f) ∨
      (t.Vacant (as.root s) v size ∧ ¬t.Torn (as.root s) v ∧
        grant (t.needed (as.root s) v size) t.pmm = none ∧ ∃ t',
        t.mapPageInternal nx (as.root s) v paddr size flags = (.outOfMemory, t') ∧
        Grown as t t') ∨
      (t.Torn (as.root s) v ∧ ∃ n pmm, IsFrame n ∧ pmm.FreeAt n ∧ Pmm.Same t.pmm pmm ∧
        t.mapPageInternal nx (as.root s) v paddr size flags =
          (.outOfMemory,
            { (t.store (as.root s) (getPml4Index v) (PmlEntry.table n)) with pmm })) ∨
      (¬t.Vacant (as.root s) v size ∧ ¬t.Misread (as.root s) v size ∧
        t.mapPageInternal nx (as.root s) v paddr size flags = (.pageMapped, t)) ∨
      (t.Misread (as.root s) v size ∧ t.mapPageInternal nx (as.root s) v paddr size flags =
        (.okay, t.store (t.pml1p (as.root s) v) (getPml1Index v) (page nx paddr flags false))) := by
  rw [mapPageInternal]
  rcases reachPml2_cases h hs hv with ⟨t₀, hreach, hgrown, hgrant, h4, h3, hcase⟩ |
    ⟨htorn, hnone, hreach⟩ | ⟨htorn, n, pmm, hframe, hfree, hsame, hreach⟩
  · rw [hreach]
    dsimp only
    have hneeded : grant (t.needed (as.root s) v size) t.pmm = grant
        (if size = ._4KiB ∧ ¬t₀.HasPml2e (as.root s) v then 1 else 0) t₀.pmm := by
      rw [needed, grant_add, hgrant, Option.bind_some]
      congr 1
      rcases hcase with ⟨h4', h3', rfl⟩ | ⟨hnot, hnew⟩
      · simp [h4', h3']
      · have hnot' : ¬(t.HasPml4e (as.root s) v ∧ t.HasPml3e (as.root s) v ∧
          t.HasPml2e (as.root s) v) := fun hall => hnot ⟨hall.1, hall.2.1⟩
        simp only [hnew, hnot']
    have hvacant : t₀.Vacant (as.root s) v size ↔ t.Vacant (as.root s) v size := by
      rcases hcase with ⟨-, -, rfl⟩ | ⟨hnot, hnew⟩
      · exact Iff.rfl
      · refine iff_of_true (Or.inr (Or.inr (Or.inl hnew))) ?_
        rcases not_and_or.mp hnot with h4' | h3'
        · exact Or.inl h4'
        · exact Or.inr (Or.inl h3')
    have hmisread : t₀.Misread (as.root s) v size → t₀ = t := by
      intro hm
      rcases hcase with ⟨-, -, rfl⟩ | ⟨-, hnew⟩
      · rfl
      · exact absurd hm.2.2.2.1 hnew
    have htorn : ¬t.Torn (as.root s) v := by
      rintro ⟨h4', -, hnone⟩
      have hmissing : t.missing (as.root s) v = 2 := by rw [missing, if_pos h4']
      rw [hmissing, hnone] at hgrant
      cases hgrant
    rw [hneeded, ← hvacant]
    rcases enterPage_cases hgrown.grounded hs hv hsize nx paddr flags h4 h3 with
      ⟨hvac, t₁, f, t', henter, hgrant', hentered⟩ | ⟨hvac, hnone, henter⟩ |
      ⟨hvac, hmis, henter⟩ | ⟨hmis, henter⟩
    · exact Or.inl ⟨hvac, t₁, f, t', henter, hgrant', hgrown.trans hentered.grown, hentered.slot,
        hentered.vacant, hentered.entry⟩
    · exact Or.inr (Or.inl ⟨hvac, htorn, hnone, t₀, henter, hgrown⟩)
    · right
      right
      right
      left
      rcases hcase with ⟨-, -, rfl⟩ | ⟨-, hnew⟩
      · exact ⟨hvac, hmis, henter⟩
      · exact absurd (Or.inr (Or.inr (Or.inl hnew))) hvac
    · obtain rfl := hmisread hmis
      exact Or.inr (Or.inr (Or.inr (Or.inr ⟨hmis, henter⟩)))
  · rw [hreach]
    refine Or.inr (Or.inl ⟨?_, htorn, ?_, t, rfl, .refl h⟩)
    · by_contra hvacant
      obtain ⟨h4, h3, -⟩ := not_or.mp hvacant |>.imp not_not.mp fun hrest => not_or.mp hrest
      rw [missing, if_neg (not_not.mpr h4), if_neg h3] at hnone
      cases hnone
    · rw [needed, grant_add, hnone]
      rfl
  · rw [hreach]
    exact Or.inr (Or.inr (Or.inl ⟨htorn, n, pmm, hframe, hfree, hsame, rfl⟩))

end Outcome

end Tables

end Beelzebub.Memory
