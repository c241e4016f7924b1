import Beelzebub.Memory.OwnershipRuns
import Beelzebub.Memory.Mapping

/-!
# Calls of `MapPage` that fail

A call that fails should leave no trace.  It does where it fails before it has stored an
entry, or has only added tables that map nothing.  Two failures are undone in part: if the
second of two new tables cannot be had, the first one is freed and its entry stays
(`Torn`); and if the reference count of the frame cannot be taken, the page stays mapped.
-/

namespace Beelzebub.Memory

open VmmArc PmlEntry

namespace Tables

variable {t t' t₁ : Tables} {as : AddressSpaces} {s s' : Space} {p q : List Nat}
  {i j f n v v' k paddr pagingTable : Nat} {pmm pmm' : Pmm} {nx countReferences : Bool}
  {size : FrameSize} {flags : MemoryFlags} {e : PmlEntry} {res : HandleResult}

/-- All translations are as before, and no entry refers to a free frame. -/
structure LeavesNoTrace (as : AddressSpaces) (t t' : Tables) : Prop where
  translate : ∀ {s v}, as.Known s → s.Covers v →
    t'.translate (as.root s) v = t.translate (as.root s) v
  noDangling : ∀ {s p i f}, as.forest.Holds link t'.mem s p i f →
    getPresent (t'.mem f i) = true → ¬t'.pmm.FreeAt (getAddress (t'.mem f i))

/-- No page shows a table. -/
def Private (t : Tables) (as : AddressSpaces) : Prop :=
  ∀ {s p i e}, as.forest.valid s (p ++ [i]) → t.leaf as s p i = some e →
    as.forest.Unused link t.mem (getAddress e)

/-- The allocator knows the frame, but does not count a reference to it. -/
def Refuses (pmm : Pmm) (paddr : Nat) : Prop :=
  (pmm.adjustReferenceCount paddr 1).1 ≠ .okay ∧
    (pmm.adjustReferenceCount paddr 1).1 ≠ .pagesOutOfAllocatorRange

instance (pmm : Pmm) (paddr : Nat) : Decidable (Refuses pmm paddr) :=
  inferInstanceAs (Decidable (_ ∧ _))

theorem Wf.leavesNoTrace (h : t.Wf as) : LeavesNoTrace as t t :=
  ⟨fun _ _ => rfl, h.noDangling⟩

theorem Grown.leavesNoTrace (hgrown : Grown as t t') (h : t.Wf as) : LeavesNoTrace as t t' :=
  ⟨hgrown.translate h.toShaped, (hgrown.wf h).noDangling⟩

/-! ## Changes outside the tables -/

section Outside

variable (hunused : as.forest.Unused link t.mem f) (hsame : ∀ g, g ≠ f → t'.mem g = t.mem g)

include hunused hsame

theorem tableAt_outside (hq : as.forest.valid s (q ++ [j])) :
    t'.tableAt as s q = t.tableAt as s q := by
  refine Radix.table_congr fun q₁ k q₂ hsplit f' hf' => ?_
  have hvalid : as.forest.valid s (q₁ ++ [k]) := by
    refine as.forest.valid_of_append (q := q₂ ++ [j]) (by simp) ?_
    rw [hsplit] at hq
    simpa using hq
  rw [hsame f' (hunused ⟨hvalid, hf'⟩)]

theorem holds_outside (hpos : as.forest.Holds link t'.mem s q j n) :
    as.forest.Holds link t.mem s q j n ∧ t'.mem n j = t.mem n j := by
  have hold : as.forest.Holds link t.mem s q j n :=
    ⟨hpos.1, (tableAt_outside hunused hsame hpos.1).symm.trans hpos.2⟩
  exact ⟨hold, congrFun (hsame n (hunused hold)) j⟩

theorem leaf_outside (hq : as.forest.valid s (q ++ [j])) : t'.leaf as s q j = t.leaf as s q j := by
  have htable := tableAt_outside hunused hsame hq
  unfold leaf
  rw [htable]
  cases hat : t.tableAt as s q with
  | none => rfl
  | some f' =>
      rw [Option.map_some, Option.map_some]
      congr 2
      exact (holds_outside hunused hsame ⟨hq, htable.trans hat⟩).2

theorem shaped_outside (h : t.Shaped as) : t'.Shaped as := by
  refine ⟨?_, ?_⟩
  · exact Radix.Forest.Separate.congr h.separate fun hvalid =>
      tableAt_outside hunused hsame hvalid
  · intro s p j f' hpos hp hpresent
    obtain ⟨hold, hword⟩ := holds_outside hunused hsame hpos
    rw [hword] at hpresent ⊢
    exact h.upper hold hp hpresent

theorem translateInternal_outside (h : t.Shaped as) (hs : as.Known s) (hv : s.Covers v) :
    t'.translateInternal (as.root s) v = t.translateInternal (as.root s) v := by
  have hvalid := AddressSpaces.valid_indices hs hv
  have hsmall := leaf_outside hunused hsame
    (q := [getPml4Index v, getPml3Index v, getPml2Index v]) hvalid
  have hlarge := leaf_outside hunused hsame (q := [getPml4Index v, getPml3Index v])
    (as.forest.valid_of_append (q := [getPml1Index v]) (by simp) hvalid)
  rw [translateInternal_eq (shaped_outside hunused hsame h) hs hv, translateInternal_eq h hs hv,
    hsmall, hlarge]

theorem translate_outside (h : t.Shaped as) (hs : as.Known s) (hv : s.Covers v) :
    t'.translate (as.root s) v = t.translate (as.root s) v := by
  rw [translate_eq_resolve, translate_eq_resolve, translateInternal_outside hunused hsame h hs hv]

end Outside

theorem mem_store_ne (t : Tables) (i : Nat) (e : PmlEntry) (g : Nat) (hg : g ≠ f) :
    (t.store f i e).mem g = t.mem g := Function.update_of_ne hg _ _

/-- A store outside the tables leaves no trace in them. -/
theorem leavesNoTrace_store_unused (hunused : as.forest.Unused link t.mem f) (h : t.Wf as)
    (i : Nat) (e : PmlEntry) : LeavesNoTrace as t (t.store f i e) := by
  have hsame := mem_store_ne (f := f) t i e
  constructor
  · intro s v hs hv
    exact translate_outside hunused hsame h.toShaped hs hv
  · intro s p j f' hpos hpresent
    obtain ⟨hold, hword⟩ := holds_outside hunused hsame hpos
    rw [hword] at hpresent ⊢
    exact h.noDangling hold hpresent

/-! ## Failures -/

/-- The two failures that are undone in part: between two new tables, and after the entry is
stored. -/
def Stranded (t : Tables) (as : AddressSpaces) (pagingTable v paddr : Nat) (size : FrameSize)
    (countReferences : Bool) : Prop :=
  ¬Illegal v ∧ checkAlignment v paddr size = some .okay ∧
    (t.Torn (as.root (Space.ofAddress pagingTable v)) v ∨
      countReferences = true ∧ t.Vacant (as.root (Space.ofAddress pagingTable v)) v size ∧
        ∃ pmm, grant (t.needed (as.root (Space.ofAddress pagingTable v)) v size) t.pmm = some pmm ∧
          Refuses pmm paddr)

theorem size_of_checkAlignment (h : checkAlignment v paddr size = some .okay) :
    size = ._4KiB ∨ size = ._2MiB := by
  cases size with
  | _4KiB => exact Or.inl rfl
  | _2MiB => exact Or.inr rfl
  | _64KiB | _4MiB | _1GiB => cases h

theorem Vacant.translate_eq_none {root : Nat} (h : t.Vacant root v size) :
    t.translate root v = none := by
  rw [translate_eq_none_iff]
  rintro ⟨h4, h3, h2, h1⟩
  rcases h with hn | hn | hn | ⟨-, hlarge, hn⟩
  · exact hn h4
  · exact hn h3
  · exact hn h2
  · exact h1.elim hlarge hn

/-- A new entry is a new translation. -/
theorem Entered.translate_ne (hsize : size = ._4KiB ∨ size = ._2MiB)
    (hentered : Entered as s v size (page nx paddr flags (size == ._2MiB)) t t₁ t' f)
    (hs : as.Known s) (hv : s.Covers v) (hvacant : t.Vacant (as.root s) v size) :
    t'.translate (as.root s) v ≠ t.translate (as.root s) v := by
  have hvalid := AddressSpaces.valid_indices hs hv
  rw [hvacant.translate_eq_none, translate_eq (hentered.shaped hsize) hs hv]
  rcases hsize with rfl | rfl
  · have hsmall := hentered.leaf (q := [getPml4Index v, getPml3Index v, getPml2Index v])
      (Or.inl rfl) hvalid
    rw [if_pos ⟨rfl, rfl, rfl⟩] at hsmall
    rw [hsmall]
    split <;> simp
  · have hlarge := hentered.leaf (q := [getPml4Index v, getPml3Index v]) (Or.inr rfl)
      (as.forest.valid_of_append (q := [getPml1Index v]) (by simp) hvalid)
    rw [if_pos ⟨rfl, rfl, rfl⟩] at hlarge
    rw [hlarge]
    simp

/-- The result of a call whose entry is stored. -/
theorem mapPage_of_okay (hlegal : ¬Illegal v) (halign : checkAlignment v paddr size = some .okay)
    (hmap : t.mapPageInternal nx (as.root (Space.ofAddress pagingTable v)) v paddr size flags =
      (.okay, t₁)) :
    t.mapPage as nx pagingTable v paddr size flags countReferences =
      some (if countReferences then
          (if (t₁.pmm.adjustReferenceCount paddr 1).1 = .pagesOutOfAllocatorRange then .okay
            else (t₁.pmm.adjustReferenceCount paddr 1).1,
          { t₁ with pmm := (t₁.pmm.adjustReferenceCount paddr 1).2 })
        else (.okay, t₁)) := by
  rw [mapPage, if_neg hlegal, halign, Option.map_some, hmap]
  rfl

theorem mapPage_of_failure (hlegal : ¬Illegal v)
    (halign : checkAlignment v paddr size = some .okay)
    (hmap : t.mapPageInternal nx (as.root (Space.ofAddress pagingTable v)) v paddr size flags =
      (res, t₁)) (hres : res ≠ .okay) :
    t.mapPage as nx pagingTable v paddr size flags countReferences = some (res, t₁) := by
  rw [mapPage, if_neg hlegal, halign, Option.map_some, hmap]
  simp [hres]

theorem Torn.grant_needed {root : Nat} (h : t.Torn root v) (size : FrameSize) :
    grant (t.needed root v size) t.pmm = none := by
  have hmissing : t.missing root v = 2 := by rw [missing, if_pos h.1]
  rw [needed, hmissing, grant_add, h.2.2]
  rfl

/-- The frame that is taken for a table is not one. -/
theorem Misread.unused (h : t.Misread (as.root s) v size) (hwf : t.Wf as)
    (hprivate : t.Private as) (hs : as.Known s) (hv : s.Covers v) :
    as.forest.Unused link t.mem (t.pml1p (as.root s) v) := by
  obtain ⟨-, h4, h3, h2, hlarge, -⟩ := h
  have hpos := holds_pml2 hwf.toShaped hs hv h4 h3
  have hleaf : t.leaf as s [getPml4Index v, getPml3Index v] (getPml2Index v) =
      some (t.mem (t.pml2p (as.root s) v) (getPml2Index v)) :=
    leaf_eq_some.mpr ⟨_, hpos.2, rfl, h2, Or.inr ⟨rfl, hlarge⟩⟩
  intro s' q j f' hpos'
  exact hprivate hpos.1 hleaf hpos'

theorem oneLargePage_private : oneLargePage.Private oneProcess := by
  intro s p i e hvalid hleaf s' q j n hpos heq
  obtain ⟨f, hf, rfl, hpresent, hlength⟩ := leaf_eq_some.mp hleaf
  rcases tableAt_oneLargePage hf hvalid.1 with ⟨rfl, rfl⟩ | ⟨rfl, rfl⟩ | ⟨rfl, rfl⟩
  · simp at hlength
  · simp at hlength
  · by_cases hi : i = 1
    · subst hi
      have haddr : getAddress (oneLargePage.mem 0x3000 1) = 0x400000 := by decide
      rw [haddr] at heq
      subst heq
      rcases tableAt_oneLargePage hpos.2 hpos.1.1 with ⟨-, hf⟩ | ⟨-, hf⟩ | ⟨-, hf⟩
      · cases hf
      · cases hf
      · cases hf
    · have hblank : oneLargePage.mem 0x3000 i = 0 := by simp [oneLargePage, hi]
      rw [hblank] at hpresent
      cases hpresent

/-- An allocator with one small frame left, at `0x401000`. -/
def oneFrameLeft : Pmm where
  spaces := ((FrameAllocationSpace.construct (fun _ => ⟨⟨0, .free⟩, 0, 0, .new, fun _ => .new⟩)
    0x100000 0x403000).map fun space => (space.allocateFrame ._2MiB 1).2).toList

theorem oneFrameLeft_sound : oneFrameLeft.Sound := by
  have hspace : ∀ space ∈ oneFrameLeft.spaces, space.Addressable ∧
      space.allocationEnd ≤ 2 ^ 52 := by
    intro space hspace
    rw [oneFrameLeft, Option.mem_toList, Option.map_eq_some_iff] at hspace
    obtain ⟨blank, hblank, rfl⟩ := hspace
    have ha := (FrameAllocationSpace.construct_addressable (by decide) (by decide) (by decide)
      (by decide) hblank).1
    refine ⟨(ha.allocateFrame ._2MiB 1).1, ?_⟩
    rw [(ha.inv.allocateFrame ._2MiB 1).2.extent.allocationEnd]
    cases hblank
    decide +kernel
  refine ⟨fun space h => (hspace space h).1, ?_, fun space h => (hspace space h).2⟩
  rw [oneFrameLeft]
  cases FrameAllocationSpace.construct _ _ _ with
  | none => exact List.Pairwise.nil
  | some space => exact List.pairwise_singleton _ _

/-- A process that has no page yet. -/
def noPage : Tables where
  mem _ _ := 0
  pmm := oneFrameLeft

theorem tableAt_noPage (h : noPage.tableAt oneProcess s p = some f) : p = [] := by
  cases p using List.reverseRecOn with
  | nil => rfl
  | append_singleton p i =>
      rw [tableAt_snoc] at h
      obtain ⟨f', -, hlink⟩ := Option.bind_eq_some_iff.mp h
      cases hlink

theorem noPage_wf : noPage.Wf oneProcess where
  separate := by
    intro s s' p p' i f h h'
    obtain rfl := tableAt_noPage h.2
    obtain rfl := tableAt_noPage h'.2
    exact ⟨space_unique_oneProcess h.1 h'.1, rfl⟩
  upper := fun _ _ hpresent => nomatch hpresent
  sound := oneFrameLeft_sound
  roots := by
    intro s hs
    rw [root_oneProcess hs]
    decide +kernel
  noDangling := fun _ hpresent => nomatch hpresent

end Tables

end Beelzebub.Memory
