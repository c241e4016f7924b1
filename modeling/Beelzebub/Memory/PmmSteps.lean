import Beelzebub.Memory.PmmInv

/-!
# Allocation and release of frames

Everything `allocateFrame` and `mingle` can do, one constructor per case
(`Allocates`, `Mingles`), and that both keep the invariant.
-/

namespace Beelzebub.Memory

open Linked

namespace FrameAllocationSpace

open LargeFrameDescriptor (nullIndex subDescriptorsCount Stacked Inner Alike)

/-- Nothing changes but the frame `i` and the links of others. -/
structure Local (i : Nat) (space space' : FrameAllocationSpace) : Prop where
  extent : space.SameExtent space'
  other : ∀ j, j ≠ i → (space.map j).Alike (space'.map j)

/-- An allocation: the address it returns and the state it leaves. -/
inductive Allocates (space : FrameAllocationSpace) (refCnt : Nat) :
    FrameSize → Nat → FrameAllocationSpace → Prop
  | exhausted (size : FrameSize) : Allocates space refCnt size 0 space
  | large {l : Nat} {space' : FrameAllocationSpace} : l < space.largeFrameCount →
      space.statusOf l = .free →
      (space'.map l).toFrameDescriptor = { status := .used, referenceCount := refCnt } →
      Local l space space' → Allocates space refCnt ._2MiB (space.frameAddress l 0) space'
  | small {l s : Nat} {space' : FrameAllocationSpace} : l < space.largeFrameCount →
      (space.statusOf l).IsSplit → (space'.statusOf l).IsSplit →
      1 ≤ s ∧ s ≤ subDescriptorsCount → ((space.map l).small s).status = .free →
      (∀ t, (space'.map l).small t = if t = s then
        { (space.map l).small s with status := .used, referenceCount := refCnt }
        else (space.map l).small t) →
      Local l space space' → Allocates space refCnt ._4KiB (space.frameAddress l s) space'
  | splitting {l s : Nat} {space' : FrameAllocationSpace} : l < space.largeFrameCount →
      space.statusOf l = .free → (space'.statusOf l).IsSplit →
      1 ≤ s ∧ s ≤ subDescriptorsCount →
      ((space'.map l).small s).toFrameDescriptor = { status := .used, referenceCount := refCnt } →
      (∀ t, 1 ≤ t ∧ t ≤ subDescriptorsCount → t ≠ s →
        ((space'.map l).small t).status = .free) →
      Local l space space' → Allocates space refCnt ._4KiB (space.frameAddress l s) space'

section Allocate

variable {space space' : FrameAllocationSpace} {L S xs : List Nat} {i : Nat}

theorem Local.trans {space'' : FrameAllocationSpace} (h : Local i space space')
    (h' : Local i space' space'') : Local i space space'' :=
  ⟨h.extent.trans h'.extent, fun j hj => (h.other j hj).trans (h'.other j hj)⟩

theorem local_modify (space : FrameAllocationSpace) (i : Nat)
    (f : LargeFrameDescriptor → LargeFrameDescriptor) : Local i space (space.modify i f) :=
  ⟨sameExtent_modify space i f, fun _ hj => alike_modify_of_ne space f hj⟩

theorem local_retireSplit (space : FrameAllocationSpace) (i : Nat) :
    Local i space (space.retireSplit i) :=
  ⟨sameExtent_retireSplit space i, fun j hj =>
    (alike_modify_of_ne space _ hj).trans (alike_retireSplit space i j)⟩

theorem local_pushSplit (space : FrameAllocationSpace) (i : Nat) :
    Local i space (space.pushSplit i) :=
  ⟨sameExtent_pushSplit space i, fun j _ => alike_pushSplit space i j⟩

theorem local_unlinkSplit (space : FrameAllocationSpace) (i : Nat) :
    Local i space (space.unlinkSplit i) :=
  ⟨sameExtent_unlinkSplit space i, fun j _ => alike_unlinkSplit space i j⟩

theorem local_pushLarge (space : FrameAllocationSpace) (i : Nat) :
    Local i space (space.pushLarge i) :=
  ⟨sameExtent_pushLarge space i, fun _ hj => alike_pushLarge_of_ne space hj⟩

theorem local_setLargeFree (space : FrameAllocationSpace) (i n : Nat) :
    Local i space (space.setLargeFree n) := ⟨⟨rfl, rfl, rfl, rfl, rfl⟩, fun _ _ => .refl _⟩

theorem Local.status_eq {j : Nat} (h : Local i space space') (hj : j ≠ i) :
    space'.statusOf j = space.statusOf j := (h.other j hj).status

/-! ## Changes inside a frame -/

/-- An inner change of a frame leaves the lists alone. -/
theorem Inner.lists {f : LargeFrameDescriptor → LargeFrameDescriptor}
    (h : (space.map i).Inner (f (space.map i))) (j : Nat) :
    (space.modify i f).next j = space.next j ∧ (space.modify i f).prev j = space.prev j ∧
      (space.modify i f).statusOf j = space.statusOf j := by
  rw [next_modify, prev_modify, statusOf_modify]
  by_cases hj : j = i
  · subst hj
    rw [if_pos rfl, if_pos rfl, if_pos rfl, h.nextIndex, h.prevIndex, h.status]
    exact ⟨rfl, rfl, rfl⟩
  · rw [if_neg hj, if_neg hj, if_neg hj]
    exact ⟨rfl, rfl, rfl⟩

theorem LargeStack.modify_inner {f : LargeFrameDescriptor → LargeFrameDescriptor}
    (hL : space.LargeStack L) (h : (space.map i).Inner (f (space.map i))) :
    (space.modify i f).LargeStack L :=
  hL.congr rfl rfl (fun j => by rw [(Inner.lists h j).2.2]) fun j _ => (Inner.lists h j).1

theorem SplitList.modify_inner {f : LargeFrameDescriptor → LargeFrameDescriptor}
    (hS : space.SplitList S) (h : (space.map i).Inner (f (space.map i))) :
    (space.modify i f).SplitList S :=
  hS.congr rfl rfl (fun j => by rw [(Inner.lists h j).2.2]) (fun j _ => (Inner.lists h j).1)
    fun j _ => (Inner.lists h j).2.1

/-! ## Taking the last small frame -/

theorem LargeStack.retireSplit (hL : space.LargeStack L) (hi : space.statusOf i ≠ .free) :
    (space.retireSplit i).LargeStack L := by
  refine hL.congr (largeFree_retireSplit space i)
    (sameExtent_retireSplit space i).largeFrameCount (fun j => ?_)
    fun j _ => next_retireSplit space i j
  rw [statusOf_retireSplit]
  split
  next h =>
    subst h
    simp [hi]
  next => rfl

theorem SplitList.retireSplit (hS : space.SplitList (i :: S)) :
    (space.retireSplit i).SplitList S := by
  obtain ⟨hnot, hnd⟩ := List.nodup_cons.mp hS.nodup
  obtain ⟨-, hnext, -⟩ := hS.seg
  rw [Option.or_none] at hnext
  refine hS.pop ?_ (sameExtent_retireSplit space i).largeFrameCount ?_ (fun j hj => ?_)
    (fun j _ => next_retireSplit space i j) (fun j hj hhead => ?_) fun j hj => ?_
  · rw [splitFree_retireSplit]
    rfl
  · rw [statusOf_retireSplit, if_pos rfl]
    simp
  · rw [statusOf_retireSplit, if_neg hj]
  · rw [prev_retireSplit, if_neg]
    rintro ⟨rfl, hne⟩
    refine hhead ?_
    rw [← hnext]
    exact link_of_ne hne
  · obtain ⟨heq, hne⟩ := link_eq_some.mp (hnext.trans hj)
    rw [prev_retireSplit, if_pos ⟨heq.symm, hne⟩]

theorem SameExtent.frameAddress (h : space.SameExtent space') (l s : Nat) :
    space'.frameAddress l s = space.frameAddress l s := by
  rw [FrameAllocationSpace.frameAddress, FrameAllocationSpace.frameAddress, h.allocationStart]

theorem IsSplit.ne_free {s : FrameStatus} (h : s.IsSplit) : s ≠ .free := by
  rcases h with rfl | rfl <;> simp

/-- A partial frame's missing small frame is not the one that is taken. -/
theorem Inv.reserved_ne {s : Nat} (hinv : space.Inv) (htrail : space.Trailing i)
    (hs : ((space.map i).small s).status ≠ .reserved) : subDescriptorsCount ≠ s := by
  rintro rfl
  exact hs (hinv.trailing i htrail).2

/-- A 4 KiB frame from the first split frame. -/
theorem Inv.allocate_small (hinv : space.Inv) (hS : space.SplitList (i :: S)) (refCnt : Nat) :
    (space.map i).extras.nextFree ≠ SmallFrameDescriptor.nullIndex ∧
      ∃ space', (if ((space.modify i (LargeFrameDescriptor.takeSmall refCnt)).map i).extras.nextFree
            = SmallFrameDescriptor.nullIndex then
          (space.modify i (LargeFrameDescriptor.takeSmall refCnt)).retireSplit i
        else space.modify i (LargeFrameDescriptor.takeSmall refCnt)) = space' ∧ space'.Inv ∧
        space.SameExtent space' ∧
          Allocates space refCnt ._4KiB (space.frameAddress i (space.map i).extras.nextFree)
          space' := by
  obtain ⟨hi, hstatus⟩ := (hS.mem_iff i).mp List.mem_cons_self
  obtain ⟨L, hL⟩ := hinv.large
  have hsplit : (space.statusOf i).IsSplit := Or.inl hstatus
  obtain ⟨xs, hstack, hfull, hlen⟩ := hinv.frames i hi hsplit
  cases xs with
  | nil => exact absurd (hstatus.symm.trans (hfull.mpr rfl)) (by simp)
  | cons s xs =>
      have hs := hstack.nextFree_eq
      obtain ⟨hrange, hfree⟩ := (hstack.mem_iff s).mp List.mem_cons_self
      have hnull : s ≠ SmallFrameDescriptor.nullIndex := by
        unfold SmallFrameDescriptor.nullIndex
        omega
      have hinner := LargeFrameDescriptor.inner_takeSmall (space.map i) refCnt
      have hL₁ := hL.modify_inner hinner
      have hS₁ := hS.modify_inner hinner
      have hstack₁ := hstack.takeSmall refCnt
      have hstatus₁ : (space.modify i (LargeFrameDescriptor.takeSmall refCnt)).statusOf i = .split :=
        (Inner.lists hinner i).2.2.trans hstatus
      have hloc₁ := local_modify space i (LargeFrameDescriptor.takeSmall refCnt)
      have hsmall : ∀ t, ((space.map i).takeSmall refCnt).small t = if t = s then
          { (space.map i).small s with status := .used, referenceCount := refCnt }
          else (space.map i).small t := by
        intro t
        rw [LargeFrameDescriptor.small_takeSmall, hs]
      have htrail : space.Trailing i →
          (((space.map i).takeSmall refCnt).small subDescriptorsCount).status = .reserved := by
        intro htr
        rw [hsmall, if_neg (hinv.reserved_ne htr (by rw [hfree]; simp))]
        exact (hinv.trailing i htr).2
      rw [List.length_cons] at hlen
      have hlast := hstack₁.nextFree_eq_null_iff
      rw [hs, map_modify_self]
      refine ⟨hnull, _, rfl, ?_⟩
      by_cases hxs : xs = []
      · -- this was the last one
        subst hxs
        rw [if_pos (hlast.mpr rfl)]
        have hloc := hloc₁.trans (local_retireSplit _ i)
        have hmap := alike_retireSplit (space.modify i (LargeFrameDescriptor.takeSmall refCnt)) i i
        rw [map_modify_self, map_modify_self] at hmap
        have hfull' : ((space.modify i (LargeFrameDescriptor.takeSmall refCnt)).retireSplit
            i).statusOf i = .full := hmap.status
        refine ⟨?_, hloc.extent, ?_⟩
        · refine hinv.of_lists hloc.extent (hL₁.retireSplit (by rw [hstatus₁]; simp))
            hS₁.retireSplit hloc.other (fun _ => ?_) fun htr => ⟨Or.inr hfull', ?_⟩
          · refine ⟨[], hstack₁.congr hmap.small hmap.nextFree hmap.freeCount, ?_, ?_⟩
            · rw [hmap.status]
              simp
            · decide
          · rw [hmap.small]
            exact htrail htr
        · refine .small hi hsplit (Or.inr hfull') hrange hfree (fun t => ?_) hloc
          rw [hmap.small]
          exact hsmall t
      · rw [if_neg fun h => hxs (hlast.mp h)]
        refine ⟨?_, hloc₁.extent, ?_⟩
        · refine hinv.of_lists hloc₁.extent hL₁ hS₁ hloc₁.other (fun _ => ?_)
            fun htr => ⟨Or.inl hstatus₁, ?_⟩
          · rw [map_modify_self]
            refine ⟨xs, hstack₁, ?_, by omega⟩
            have : ((space.map i).takeSmall refCnt).status = .split := hstatus
            rw [this]
            simp [hxs]
          · rw [map_modify_self]
            exact htrail htr
        · refine .small hi hsplit (Or.inl hstatus₁) hrange hfree (fun t => ?_) hloc₁
          rw [map_modify_self]
          exact hsmall t

/-! ## Taking a large frame -/

/-- A frame on the stack of free frames is not a partial one. -/
theorem Inv.not_trailing (hinv : space.Inv) (hi : space.statusOf i = .free) :
    ¬space.Trailing i := by
  intro htr
  exact IsSplit.ne_free (hinv.trailing i htr).1 hi

/-- A 2 MiB frame. -/
theorem Inv.grab_large (hinv : space.Inv) (hL : space.LargeStack (i :: L)) (refCnt : Nat) :
    ((space.setLargeFree (space.map i).nextIndex).modify i fun d =>
        { d with toFrameDescriptor := d.toFrameDescriptor.use refCnt }).Inv ∧
      Allocates space refCnt ._2MiB (space.frameAddress i 0)
        ((space.setLargeFree (space.map i).nextIndex).modify i fun d =>
          { d with toFrameDescriptor := d.toFrameDescriptor.use refCnt }) := by
  obtain ⟨hi, hfree⟩ := (hL.mem_iff i).mp List.mem_cons_self
  obtain ⟨hnot, -⟩ := List.nodup_cons.mp hL.nodup
  obtain ⟨S, hS⟩ := hinv.split
  generalize ht : (space.setLargeFree (space.map i).nextIndex).modify i (fun d =>
    { d with toFrameDescriptor := d.toFrameDescriptor.use refCnt }) = t
  have hloc : Local i space t := by
    rw [← ht]
    exact (local_setLargeFree space i _).trans (local_modify _ i _)
  have hmap : t.map i = { space.map i with
      toFrameDescriptor := { status := .used, referenceCount := refCnt } } := by
    rw [← ht, map_modify_self]
    rfl
  have hstatus : t.statusOf i = .used := by rw [statusOf, hmap]
  have hnext : ∀ j, t.next j = space.next j := by
    intro j
    rw [← ht, next_modify]
    split
    next h => rw [h]; rfl
    next => rfl
  have hprev : ∀ j, t.prev j = space.prev j := by
    intro j
    rw [← ht, prev_modify]
    split
    next h => rw [h]; rfl
    next => rfl
  have hS' : t.SplitList S := by
    refine hS.congr (by rw [← ht]; rfl) hloc.extent.largeFrameCount (fun j => ?_)
      (fun j _ => hnext j) fun j _ => hprev j
    by_cases hj : j = i
    · subst hj
      rw [hstatus, hfree]
      simp
    · rw [hloc.status_eq hj]
  have hL' : t.LargeStack L := by
    refine hL.pop (by rw [← ht]; rfl) hloc.extent.largeFrameCount (by rw [hstatus]; simp)
      (fun j hj => by rw [hloc.status_eq hj]) fun j _ => hnext j
  refine ⟨hinv.of_lists hloc.extent hL' hS' hloc.other (fun h => ?_) fun htr => ?_,
    .large hi hfree (by rw [hmap]) hloc⟩
  · rw [hstatus] at h
    rcases h with h | h <;> cases h
  · exact absurd htr (hinv.not_trailing hfree)

/-- A 4 KiB frame from a large frame that is split for it. -/
theorem Inv.grab_split (hinv : space.Inv) (hL : space.LargeStack (i :: L)) (refCnt : Nat)
    {t : FrameAllocationSpace}
    (ht : t = (((space.setLargeFree (space.map i).nextIndex).modify i
      (LargeFrameDescriptor.splitLargeFrame subDescriptorsCount)).modify i
      (LargeFrameDescriptor.takeSmall refCnt)).pushSplit i) :
    t.Inv ∧ Allocates space refCnt ._4KiB (space.frameAddress i 1) t := by
  obtain ⟨hi, hfree⟩ := (hL.mem_iff i).mp List.mem_cons_self
  obtain ⟨hnot, -⟩ := List.nodup_cons.mp hL.nodup
  obtain ⟨S, hS⟩ := hinv.split
  obtain ⟨-, hnull⟩ := hL.largeFree_eq
  rw [modify_modify] at ht
  generalize hu : (space.setLargeFree (space.map i).nextIndex).modify i (fun d =>
    (d.splitLargeFrame subDescriptorsCount).takeSmall refCnt) = u at ht
  have hlocu : Local i space u := by
    rw [← hu]
    exact (local_setLargeFree space i _).trans (local_modify _ i _)
  have hloc : Local i space t := by
    rw [ht]
    exact hlocu.trans (local_pushSplit u i)
  have hmapu : u.map i =
      ((space.map i).splitLargeFrame subDescriptorsCount).takeSmall refCnt := by
    rw [← hu, map_modify_self]
    rfl
  have halike : (u.map i).Alike (t.map i) := ht ▸ alike_pushSplit u i i
  have hstatus : t.statusOf i = .split := by
    rw [statusOf, halike.status, hmapu]
    rfl
  -- the stack after the split and after the first frame is taken
  have hstack := LargeFrameDescriptor.stacked_splitLargeFrame (space.map i)
    subDescriptorsCount (by decide) (Nat.le_refl _)
  have hrange : List.range' 1 subDescriptorsCount = 1 :: List.range' 2 510 := rfl
  rw [hrange] at hstack
  have hfirst := hstack.nextFree_eq
  have hstack' := (hmapu ▸ hstack.takeSmall refCnt).congr halike.small halike.nextFree
    halike.freeCount
  have hsmall : ∀ s, (t.map i).small s = if s = 1 then
      { ((space.map i).splitLargeFrame subDescriptorsCount).small 1 with
        status := .used, referenceCount := refCnt }
      else ((space.map i).splitLargeFrame subDescriptorsCount).small s := by
    intro s
    rw [halike.small, hmapu, LargeFrameDescriptor.small_takeSmall, hfirst]
  -- the lists
  have hsplitFree : u.splitFree = space.splitFree := by rw [← hu]; rfl
  have hnextu : ∀ j, j ≠ i → u.next j = space.next j := by
    intro j hj
    rw [← hu, next_modify, if_neg hj, next_setLargeFree]
  have hprevu : ∀ j, j ≠ i → u.prev j = space.prev j := by
    intro j hj
    rw [← hu, prev_modify, if_neg hj, prev_setLargeFree]
  have hiS : i ∉ S := by
    intro hmem
    have := ((hS.mem_iff i).mp hmem).2
    rw [hfree] at this
    cases this
  have hS' : t.SplitList (i :: S) := by
    have hhead := hS.head
    refine hS.push hi hnull (by rw [hfree]; simp) (by rw [ht, splitFree_pushSplit])
      hloc.extent.largeFrameCount hstatus (fun j hj => by rw [hloc.status_eq hj]) ?_ ?_
      (fun j hj => ?_) (fun j hj hne => ?_) fun j hj => ?_
    · rw [ht, next_pushSplit, if_pos rfl, hsplitFree]
    · rw [ht, prev_pushSplit, hsplitFree, if_neg]
      · rw [prev, hmapu, (LargeFrameDescriptor.inner_takeSmall _ refCnt).prevIndex,
          LargeFrameDescriptor.extras_splitLargeFrame _ (by decide)]
        exact link_null
      · rintro ⟨heq, hne⟩
        rw [← heq, link_of_ne hnull] at hhead
        exact hiS (List.mem_of_head? hhead.symm)
    · have hji : j ≠ i := fun h => hiS (h ▸ hj)
      rw [ht, next_pushSplit, if_neg hji, hnextu j hji]
    · have hji : j ≠ i := fun h => hiS (h ▸ hj)
      rw [ht, prev_pushSplit, hsplitFree, if_neg, hprevu j hji]
      rintro ⟨rfl, hnull'⟩
      exact hne (hhead.symm.trans (link_of_ne hnull'))
    · obtain ⟨heq, hne⟩ := link_eq_some.mp (hhead.trans hj)
      rw [ht, prev_pushSplit, hsplitFree, if_pos ⟨heq.symm, hne⟩, link_of_ne hnull]
  have hL' : t.LargeStack L := by
    refine hL.pop ?_ hloc.extent.largeFrameCount (by rw [hstatus]; simp)
      (fun j hj => by rw [hloc.status_eq hj]) fun j hj => ?_
    · rw [ht, largeFree_pushSplit, ← hu]
      rfl
    · have hji : j ≠ i := fun h => hnot (h ▸ hj)
      rw [ht, next_pushSplit, if_neg hji, hnextu j hji]
  refine ⟨hinv.of_lists hloc.extent hL' hS' hloc.other (fun _ => ?_) fun htr => ?_, ?_⟩
  · refine ⟨_, hstack', ?_, by rw [List.length_range']; decide⟩
    rw [show (t.map i).status = .split from hstatus, List.range'_eq_nil_iff]
    simp
  · exact absurd htr (hinv.not_trailing hfree)
  · refine .splitting hi hfree (Or.inl hstatus) (by decide) ?_ (fun s hs hne => ?_) hloc
    · rw [hsmall, if_pos rfl]
    · rw [hsmall, if_neg hne, LargeFrameDescriptor.small_splitLargeFrame _ (Nat.le_refl _) hs,
        if_pos hs.2]
      rfl

theorem Inv.grabLargePage (hinv : space.Inv) {size : FrameSize}
    (hsize : size = ._2MiB ∨ size = ._4KiB) (refCnt : Nat) :
    (space.grabLargePage size refCnt).2.Inv ∧
      Allocates space refCnt size (space.grabLargePage size refCnt).1
        (space.grabLargePage size refCnt).2 := by
  obtain ⟨L, hL⟩ := hinv.large
  unfold FrameAllocationSpace.grabLargePage
  cases L with
  | nil =>
      rw [if_pos (link_eq_none.mp hL.chain)]
      exact ⟨hinv, .exhausted size⟩
  | cons i L =>
      obtain ⟨hfree, hnull⟩ := hL.largeFree_eq
      rw [hfree, if_neg hnull]
      rcases hsize with rfl | rfl
      · rw [if_pos rfl]
        exact hinv.grab_large hL refCnt
      · rw [if_neg (by simp)]
        have hsplit := hinv.grab_split hL refCnt rfl
        have hfirst : (((space.setLargeFree (space.map i).nextIndex).modify i
            (LargeFrameDescriptor.splitLargeFrame subDescriptorsCount)).map i).extras.nextFree =
            1 := by
          rw [map_modify_self, LargeFrameDescriptor.extras_splitLargeFrame _ (by decide)]
        have hext := (((sameExtent_modify (space.setLargeFree (space.map i).nextIndex) i
          (LargeFrameDescriptor.splitLargeFrame subDescriptorsCount)).trans
          (sameExtent_modify _ i (LargeFrameDescriptor.takeSmall refCnt))).trans
          (sameExtent_pushSplit _ i))
        simp only [hfirst, hext.frameAddress]
        exact hsplit

/-- Allocation keeps the invariant and does nothing but what `Allocates` says. -/
theorem Inv.allocateFrame (hinv : space.Inv) (size : FrameSize) (refCnt : Nat) :
    (space.allocateFrame size refCnt).2.Inv ∧
      Allocates space refCnt size (space.allocateFrame size refCnt).1
        (space.allocateFrame size refCnt).2 := by
  cases size with
  | _64KiB => exact ⟨hinv, .exhausted _⟩
  | _4MiB => exact ⟨hinv, .exhausted _⟩
  | _1GiB => exact ⟨hinv, .exhausted _⟩
  | _2MiB => exact hinv.grabLargePage (Or.inl rfl) refCnt
  | _4KiB =>
      obtain ⟨S, hS⟩ := hinv.split
      unfold FrameAllocationSpace.allocateFrame
      cases S with
      | nil =>
          simp only [if_pos (link_eq_none.mp hS.head)]
          exact hinv.grabLargePage (Or.inr rfl) refCnt
      | cons i S =>
          obtain ⟨hfree, hnull⟩ := hS.splitFree_eq
          obtain ⟨hnext, space', heq, hinv', hext, halloc⟩ := hinv.allocate_small hS refCnt
          simp only [hfree, if_neg hnull, if_neg hnext, heq, hext.frameAddress]
          exact ⟨hinv', halloc⟩

end Allocate

/-! ## Release -/

/-- A call of `mingle`: whether it frees a frame, and the state it leaves. -/
inductive Mingles (space : FrameAllocationSpace) (addr : Nat) :
    Bool → FrameAllocationSpace → Prop
  | unchanged : Mingles space addr false space
  | countLarge {l : Nat} {space' : FrameAllocationSpace} : space.largeIndex addr = l →
      l < space.largeFrameCount → space.statusOf l = .used → space'.statusOf l = .used →
      Local l space space' → Mingles space addr false space'
  | freeLarge {l : Nat} {space' : FrameAllocationSpace} : space.largeIndex addr = l →
      l < space.largeFrameCount → space.statusOf l = .used → space'.statusOf l = .free →
      Local l space space' → Mingles space addr true space'
  | countSmall {l s : Nat} {space' : FrameAllocationSpace} : space.largeIndex addr = l →
      smallIndex addr = s → l < space.largeFrameCount → 1 ≤ s ∧ s ≤ subDescriptorsCount →
      (space.statusOf l).IsSplit → (space'.statusOf l).IsSplit →
      (∀ t, ((space'.map l).small t).status = ((space.map l).small t).status) →
      Local l space space' → Mingles space addr false space'
  | freeSmall {l s : Nat} {space' : FrameAllocationSpace} : space.largeIndex addr = l →
      smallIndex addr = s → l < space.largeFrameCount → 1 ≤ s ∧ s ≤ subDescriptorsCount →
      (space.statusOf l).IsSplit → ((space.map l).small s).status = .used →
      (space'.statusOf l).IsSplit →
      (∀ t, ((space'.map l).small t).status =
        if t = s then .free else ((space.map l).small t).status) →
      Local l space space' → Mingles space addr true space'
  | reclaim {l s : Nat} {space' : FrameAllocationSpace} : space.largeIndex addr = l →
      smallIndex addr = s → l < space.largeFrameCount → 1 ≤ s ∧ s ≤ subDescriptorsCount →
      (space.statusOf l).IsSplit → ((space.map l).small s).status = .used →
      (∀ t, 1 ≤ t ∧ t ≤ subDescriptorsCount → t ≠ s →
        ((space.map l).small t).status = .free) →
      space'.statusOf l = .free → Local l space space' → Mingles space addr true space'

section Release

variable {space space' : FrameAllocationSpace} {L S xs : List Nat} {i : Nat}

/-- The large frame around an address of the allocation area. -/
theorem Inv.largeIndex_lt (hinv : space.Inv) (addr : Nat)
    (haddr : space.allocationStart ≤ addr ∧ addr < space.allocationEnd) :
    space.largeIndex addr = (addr - space.allocationStart) / largePageSize ∧
      space.largeIndex addr < space.largeFrameCount := by
  have hextent := hinv.extent
  have hend := hinv.end_lt
  have hbound := hinv.bounded
  have hsub : Word.sub addr space.allocationStart = addr - space.allocationStart :=
    Word.sub_of_le (by omega) haddr.1
  have hlt : (addr - space.allocationStart) / largePageSize < space.largeFrameCount := by
    rw [Nat.div_lt_iff_lt_mul (by decide)]
    omega
  have hmod : (addr - space.allocationStart) / largePageSize % 2 ^ 32 =
      (addr - space.allocationStart) / largePageSize := by
    refine Nat.mod_eq_of_lt ?_
    unfold LargeFrameDescriptor.nullIndex SplitFrameExtra.nullIndex at hbound
    omega
  rw [largeIndex, hsub, hmod]
  exact ⟨rfl, hlt⟩

theorem Inv.ne_null (hinv : space.Inv) (hi : i < space.largeFrameCount) : i ≠ nullIndex := by
  have := hinv.bounded
  omega

/-- An inner change keeps the invariant if the frame is in order afterwards. -/
theorem Inv.modify_inner (hinv : space.Inv) {f : LargeFrameDescriptor → LargeFrameDescriptor}
    (h : (space.map i).Inner (f (space.map i)))
    (hc : (space.statusOf i).IsSplit → (f (space.map i)).Consistent)
    (htrail : space.Trailing i →
      ((f (space.map i)).small subDescriptorsCount).status = .reserved) :
    (space.modify i f).Inv := by
  obtain ⟨L, hL⟩ := hinv.large
  obtain ⟨S, hS⟩ := hinv.split
  have hloc := local_modify space i f
  have hstatus := (Inner.lists h i).2.2
  refine hinv.of_lists hloc.extent (hL.modify_inner h) (hS.modify_inner h) hloc.other
    (fun hs => ?_) fun htr => ?_
  · rw [hstatus] at hs
    rw [map_modify_self]
    exact hc hs
  · rw [hstatus, map_modify_self]
    exact ⟨(hinv.trailing i htr).1, htrail htr⟩

/-- A used large frame becomes free. -/
theorem Inv.pushLarge (hinv : space.Inv) (hi : i < space.largeFrameCount)
    (hused : space.statusOf i = .used) : (space.pushLarge i).Inv := by
  obtain ⟨L, hL⟩ := hinv.large
  obtain ⟨S, hS⟩ := hinv.split
  have hloc := local_pushLarge space i
  have hstatus : (space.pushLarge i).statusOf i = .free := by
    rw [statusOf_pushLarge, if_pos rfl]
  have hiL : ∀ j ∈ L, j ≠ i := by
    rintro j hj rfl
    have := ((hL.mem_iff j).mp hj).2
    rw [hused] at this
    cases this
  have hiS : ∀ j ∈ S, j ≠ i := by
    rintro j hj rfl
    have := ((hS.mem_iff j).mp hj).2
    rw [hused] at this
    cases this
  have hL' : (space.pushLarge i).LargeStack (i :: L) := by
    refine hL.push hi (hinv.ne_null hi) (by rw [hused]; simp) rfl rfl hstatus
      (fun j hj => by rw [hloc.status_eq hj]) ?_ fun j hj => ?_
    · rw [next_pushLarge, if_pos rfl]
    · rw [next_pushLarge, if_neg (hiL j hj)]
  have hS' : (space.pushLarge i).SplitList S := by
    refine hS.congr rfl rfl (fun j => ?_) (fun j hj => ?_) fun j _ => prev_pushLarge space i j
    · by_cases hj : j = i
      · subst hj
        rw [hstatus, hused]
        simp
      · rw [hloc.status_eq hj]
    · rw [next_pushLarge, if_neg (hiS j hj)]
  refine hinv.of_lists hloc.extent hL' hS' hloc.other (fun h => ?_) fun htr => ?_
  · exact absurd hstatus (IsSplit.ne_free h)
  · have := (hinv.trailing i htr).1
    rw [hused] at this
    rcases this with h | h <;> cases h

theorem status_test (newCnt : Nat) (diff : Int) (ignoreRefCnt : Bool) (d : FrameDescriptor) :
    (test newCnt diff ignoreRefCnt d).2.2.status = d.status := by
  unfold test
  split <;> rfl

/-- The frame is freed exactly if the caller can see it. -/
theorem test_freed {newCnt : Nat} {diff : Int} {ignoreRefCnt : Bool} {d : FrameDescriptor}
    {freed : Bool} {newCnt' : Nat} {d' : FrameDescriptor}
    (h : test newCnt diff ignoreRefCnt d = (freed, newCnt', d')) (hdiff : diff ≠ 0) :
    freed = decide (newCnt' = 0) := by
  unfold test at h
  rw [if_neg hdiff] at h
  cases h
  exact beq_eq_decide ..

/-- What a release of a small frame leaves. -/
structure Released (space : FrameAllocationSpace) (i s : Nat) (space' : FrameAllocationSpace) :
    Prop where
  inv : space'.Inv
  loc : Local i space space'
  outcome : ((space'.statusOf i).IsSplit ∧ ∀ t, ((space'.map i).small t).status =
      if t = s then .free else ((space.map i).small t).status) ∨
    space'.statusOf i = .free ∧ ∀ t, 1 ≤ t ∧ t ≤ subDescriptorsCount → t ≠ s →
      ((space.map i).small t).status = .free

section ReleaseSmall

variable {s : Nat}

theorem status_giveSmall (d : LargeFrameDescriptor) (s t : Nat) :
    ((d.giveSmall s).small t).status = if t = s then .free else (d.small t).status := by
  rw [LargeFrameDescriptor.small_giveSmall]
  split <;> rfl

/-- A small frame of a frame that stays split. -/
theorem Inv.give_split (hinv : space.Inv) (hi : i < space.largeFrameCount)
    (hs : 1 ≤ s ∧ s ≤ subDescriptorsCount) (hsplit : space.statusOf i = .split)
    (hused : ((space.map i).small s).status = .used)
    (hcount : ((space.map i).giveSmall s).extras.freeCount ≠ subDescriptorsCount) :
    Released space i s (space.modify i (LargeFrameDescriptor.giveSmall s)) := by
  obtain ⟨xs, hstack, -, -⟩ := hinv.frames i hi (Or.inl hsplit)
  have hstack' := hstack.giveSmall hs (by rw [hused]; simp)
  have hinner := LargeFrameDescriptor.inner_giveSmall (space.map i) s
  have hlen := hstack'.length_le
  rw [hstack'.count] at hcount
  refine ⟨hinv.modify_inner hinner (fun _ => ⟨_, hstack', ?_, by omega⟩) fun htr => ?_,
    local_modify space i _, Or.inl ⟨?_, fun t => ?_⟩⟩
  · have : ((space.map i).giveSmall s).status = .split := hsplit
    rw [this]
    simp
  · rw [status_giveSmall, if_neg (hinv.reserved_ne htr (by rw [hused]; simp))]
    exact (hinv.trailing i htr).2
  · rw [(Inner.lists hinner i).2.2]
    exact Or.inl hsplit
  · rw [map_modify_self]
    exact status_giveSmall _ s t

/-- A small frame of a full frame, which becomes the first split frame. -/
theorem Inv.give_full (hinv : space.Inv) (hi : i < space.largeFrameCount)
    (hs : 1 ≤ s ∧ s ≤ subDescriptorsCount) (hfull : space.statusOf i = .full)
    (hused : ((space.map i).small s).status = .used) {t : FrameAllocationSpace}
    (ht : t = (((space.modify i (LargeFrameDescriptor.giveSmall s)).modify i
      fun d => { d with status := .split }).pushSplit i).modify i
      fun d => { d with extras.prevIndex := nullIndex }) : Released space i s t := by
  obtain ⟨L, hL⟩ := hinv.large
  obtain ⟨S, hS⟩ := hinv.split
  obtain ⟨xs, hstack, hxs, -⟩ := hinv.frames i hi (Or.inr hfull)
  obtain rfl := hxs.mp hfull
  have hnull := hinv.ne_null hi
  have hstack' := hstack.giveSmall hs (by rw [hused]; simp)
  rw [modify_modify] at ht
  generalize hu : space.modify i (fun d => { d.giveSmall s with status := .split }) = u at ht
  have hlocu : Local i space u := hu ▸ local_modify space i _
  have hloc : Local i space t := by
    rw [ht]
    exact (hlocu.trans (local_pushSplit u i)).trans (local_modify _ i _)
  have hmapu : u.map i = { (space.map i).giveSmall s with status := .split } := by
    rw [← hu, map_modify_self]
  have halike : (u.map i).Alike (t.map i) := by
    refine (alike_pushSplit u i i).trans ?_
    rw [ht, map_modify_self]
    exact ⟨rfl, rfl, rfl, rfl⟩
  have hstatus : t.statusOf i = .split := by
    rw [statusOf, halike.status, hmapu]
  have hsmall : ∀ k, ((t.map i).small k).status =
      if k = s then .free else ((space.map i).small k).status := by
    intro k
    rw [halike.small, hmapu]
    exact status_giveSmall _ s k
  have hsplitFree : u.splitFree = space.splitFree := by rw [← hu]; rfl
  have hnextu : ∀ j, j ≠ i → t.next j = space.next j := by
    intro j hj
    rw [ht, next_modify, if_neg hj, next_pushSplit, if_neg hj, ← hu, next_modify, if_neg hj]
  have hprevt : ∀ j, j ≠ i → t.prev j =
      if j = space.splitFree ∧ space.splitFree ≠ nullIndex then some i else space.prev j := by
    intro j hj
    rw [ht, prev_modify, if_neg hj, prev_pushSplit, hsplitFree, link_of_ne hnull, ← hu,
      prev_modify, if_neg hj]
  have hiS : ∀ j ∈ S, j ≠ i := by
    rintro j hj rfl
    have := ((hS.mem_iff j).mp hj).2
    rw [hfull] at this
    cases this
  have hiL : ∀ j ∈ L, j ≠ i := by
    rintro j hj rfl
    have := ((hL.mem_iff j).mp hj).2
    rw [hfull] at this
    cases this
  have hS' : t.SplitList (i :: S) := by
    have hhead := hS.head
    refine hS.push hi hnull (by rw [hfull]; simp) (by rw [ht]; exact splitFree_pushSplit u i)
      hloc.extent.largeFrameCount hstatus (fun j hj => by rw [hloc.status_eq hj]) ?_ ?_
      (fun j hj => hnextu j (hiS j hj)) (fun j hj hne => ?_) fun j hj => ?_
    · rw [ht, next_modify, if_pos rfl, ← hsplitFree]
      have := next_pushSplit u i i
      rw [if_pos rfl] at this
      exact this
    · rw [ht, prev_modify, if_pos rfl]
      exact link_null
    · rw [hprevt j (hiS j hj), if_neg]
      rintro ⟨rfl, hnull'⟩
      exact hne (hhead.symm.trans (link_of_ne hnull'))
    · obtain ⟨heq, hne⟩ := link_eq_some.mp (hhead.trans hj)
      rw [hprevt j (hiS j (List.mem_of_head? hj)), if_pos ⟨heq.symm, hne⟩]
  have hL' : t.LargeStack L := by
    refine hL.congr ?_ hloc.extent.largeFrameCount (fun j => ?_) fun j hj => hnextu j (hiL j hj)
    · rw [ht]
      show (u.pushSplit i).largeFree = _
      rw [largeFree_pushSplit, ← hu]
      rfl
    · by_cases hj : j = i
      · subst hj
        rw [hstatus, hfull]
        simp
      · rw [hloc.status_eq hj]
  refine ⟨hinv.of_lists hloc.extent hL' hS' hloc.other (fun _ => ⟨[s], ?_, ?_, ?_⟩)
    fun htr => ⟨Or.inl hstatus, ?_⟩, hloc, Or.inl ⟨Or.inl hstatus, hsmall⟩⟩
  · exact hstack'.congr (halike.small.trans (by rw [hmapu]))
      (halike.nextFree.trans (by rw [hmapu])) (halike.freeCount.trans (by rw [hmapu]))
  · rw [show (t.map i).status = .split from hstatus]
    simp
  · rw [List.length_singleton]
    decide
  · rw [hsmall, if_neg (hinv.reserved_ne htr (by rw [hused]; simp))]
    exact (hinv.trailing i htr).2

/-- The frame before and the one after a removed frame are linked. -/
theorem SplitList.unlinkSplit {S₁ S₂ : List Nat} (hS : space.SplitList (S₁ ++ i :: S₂))
    (hext : space.SameExtent space') (hi : space'.statusOf i ≠ .split)
    (hstatus : ∀ j, j ≠ i → space'.statusOf j = space.statusOf j)
    (hfree : space'.splitFree = (space.unlinkSplit i).splitFree)
    (hnext : ∀ j, j ≠ i → space'.next j = (space.unlinkSplit i).next j)
    (hprev : ∀ j, j ≠ i → space'.prev j = (space.unlinkSplit i).prev j) :
    space'.SplitList (S₁ ++ S₂) := by
  obtain ⟨hp, hn⟩ := seg_middle hS.seg
  rw [Option.or_none] at hp hn
  obtain ⟨hnot, hnd⟩ := List.nodup_cons.mp (List.nodup_middle.mp hS.nodup)
  obtain ⟨-, -, hdisj⟩ := List.nodup_append.mp hnd
  have hne₁ : ∀ j ∈ S₁, j ≠ i := fun j hj h => hnot (h ▸ List.mem_append_left _ hj)
  have hne₂ : ∀ j ∈ S₂, j ≠ i := fun j hj h => hnot (h ▸ List.mem_append_right _ hj)
  -- the neighbours, as the indices stored in the frame
  have hprev_iff : ∀ j, (j = (space.map i).extras.prevIndex ∧
      (space.map i).extras.prevIndex ≠ nullIndex) ↔ S₁.getLast? = some j := by
    intro j
    rw [← hp, prev, link_eq_some]
    exact ⟨fun h => ⟨h.1.symm, h.2⟩, fun h => ⟨h.1.symm, h.2⟩⟩
  have hnext_iff : ∀ j, (j = (space.map i).nextIndex ∧ (space.map i).nextIndex ≠ nullIndex) ↔
      S₂.head? = some j := by
    intro j
    rw [← hn, next, link_eq_some]
    exact ⟨fun h => ⟨h.1.symm, h.2⟩, fun h => ⟨h.1.symm, h.2⟩⟩
  refine hS.remove ?_ hext.largeFrameCount hi (fun j hj => by rw [hstatus j hj])
    (fun j hj hlast => ?_) (fun j hj => ?_) (fun j hj => ?_) (fun j hj => ?_)
    (fun j hj hhead => ?_) fun j hj => ?_
  · rw [hfree, splitFree_unlinkSplit]
    have hhead := hS.head
    cases S₁ with
    | nil =>
        rw [if_pos (link_eq_some.mp hhead).1]
        exact hn
    | cons a S₁ =>
        have ha := (link_eq_some.mp hhead).1
        rw [if_neg (ha ▸ hne₁ a List.mem_cons_self)]
        exact hhead
  · rw [hnext j (hne₁ j hj), next_unlinkSplit, if_neg fun h => hlast ((hprev_iff j).mp h)]
  · rw [hnext j (hne₁ j (List.mem_of_getLast? hj)), next_unlinkSplit,
      if_pos ((hprev_iff j).mpr hj)]
  · rw [hprev j (hne₁ j hj), prev_unlinkSplit, if_neg]
    intro h
    exact hdisj j hj j (List.mem_of_head? ((hnext_iff j).mp h)) rfl
  · rw [hnext j (hne₂ j hj), next_unlinkSplit, if_neg]
    intro h
    exact hdisj j (List.mem_of_getLast? ((hprev_iff j).mp h)) j hj rfl
  · rw [hprev j (hne₂ j hj), prev_unlinkSplit, if_neg fun h => hhead ((hnext_iff j).mp h)]
  · rw [hprev j (hne₂ j (List.mem_of_head? hj)), prev_unlinkSplit,
      if_pos ((hnext_iff j).mpr hj)]

/-- The last used small frame of a split frame, which becomes free as a whole. -/
theorem Inv.give_whole (hinv : space.Inv) (hi : i < space.largeFrameCount)
    (hs : 1 ≤ s ∧ s ≤ subDescriptorsCount) (hsplit : space.statusOf i = .split)
    (hused : ((space.map i).small s).status = .used)
    (hcount : ((space.map i).giveSmall s).extras.freeCount = subDescriptorsCount)
    {t : FrameAllocationSpace}
    (ht : t = ((space.modify i (LargeFrameDescriptor.giveSmall s)).unlinkSplit i).pushLarge i) :
    Released space i s t := by
  obtain ⟨L, hL⟩ := hinv.large
  obtain ⟨S, hS⟩ := hinv.split
  obtain ⟨xs, hstack, -, -⟩ := hinv.frames i hi (Or.inl hsplit)
  have hstack' := hstack.giveSmall hs (by rw [hused]; simp)
  rw [hstack'.count] at hcount
  have hall : ∀ k, 1 ≤ k ∧ k ≤ subDescriptorsCount → k ≠ s →
      ((space.map i).small k).status = .free := by
    intro k hk hne
    by_contra hfree
    have hlt := hstack'.length_lt (i := k) hk (by rw [status_giveSmall, if_neg hne]; exact hfree)
    omega
  have hnull := hinv.ne_null hi
  have hinner := LargeFrameDescriptor.inner_giveSmall (space.map i) s
  generalize hu : space.modify i (LargeFrameDescriptor.giveSmall s) = u at ht
  have hlocu : Local i space u := hu ▸ local_modify space i _
  have hloc : Local i space t := by
    rw [ht]
    exact (hlocu.trans (local_unlinkSplit u i)).trans (local_pushLarge _ i)
  have hLu : u.LargeStack L := hu ▸ hL.modify_inner hinner
  have hSu : u.SplitList S := hu ▸ hS.modify_inner hinner
  have hsplitu : u.statusOf i = .split := by
    rw [← hu, (Inner.lists hinner i).2.2, hsplit]
  have hiu : i < u.largeFrameCount := hlocu.extent.largeFrameCount ▸ hi
  have hstatus : t.statusOf i = .free := by
    rw [ht, statusOf_pushLarge, if_pos rfl]
  have hstatus_ne : ∀ j, j ≠ i → t.statusOf j = u.statusOf j := by
    intro j hj
    rw [hloc.status_eq hj, hlocu.status_eq hj]
  have hext : u.SameExtent t := by
    rw [ht]
    exact (sameExtent_unlinkSplit u i).trans (sameExtent_pushLarge _ i)
  obtain ⟨S₁, S₂, rfl⟩ := List.append_of_mem ((hSu.mem_iff i).mpr ⟨hiu, hsplitu⟩)
  have hS' : t.SplitList (S₁ ++ S₂) := by
    refine hSu.unlinkSplit hext (by rw [hstatus]; simp) hstatus_ne (by rw [ht]; rfl)
      (fun j hj => ?_) fun j hj => ?_
    · rw [ht, next_pushLarge, if_neg hj]
    · rw [ht, prev_pushLarge]
  have hL' : t.LargeStack (i :: L) := by
    refine hLu.push hiu hnull (by rw [hsplitu]; simp) (by rw [ht]; rfl) hext.largeFrameCount
      hstatus (fun j hj => by rw [hstatus_ne j hj]) ?_ fun j hj => ?_
    · rw [ht, next_pushLarge, if_pos rfl, largeFree_unlinkSplit]
    · have hfree := ((hLu.mem_iff j).mp hj).2
      have hji : j ≠ i := by
        rintro rfl
        rw [hsplitu] at hfree
        cases hfree
      rw [ht, next_pushLarge, if_neg hji, next_unlinkSplit, if_neg]
      rintro ⟨rfl, hne⟩
      -- the frame before `i` is split
      have hp := (seg_middle hSu.seg).1
      rw [Option.or_none] at hp
      have hmem := List.mem_of_getLast? (hp.symm.trans (link_of_ne hne))
      have := ((hSu.mem_iff _).mp (List.mem_append_left _ hmem)).2
      rw [hfree] at this
      cases this
  refine ⟨hinv.of_lists hloc.extent hL' hS' hloc.other (fun h => ?_) fun htr => ?_, hloc,
    Or.inr ⟨hstatus, hall⟩⟩
  · exact absurd hstatus (IsSplit.ne_free h)
  · have hres := (hinv.trailing i htr).2
    have hne := hinv.reserved_ne htr (s := s) (by rw [hused]; simp)
    rw [hall _ (by decide) hne] at hres
    cases hres

theorem Inv.releaseSmall (hinv : space.Inv) (hi : i < space.largeFrameCount)
    (hs : 1 ≤ s ∧ s ≤ subDescriptorsCount) (hsplit : (space.statusOf i).IsSplit)
    (hused : ((space.map i).small s).status = .used) :
    Released space i s (space.releaseSmall i s) := by
  unfold FrameAllocationSpace.releaseSmall
  have hstatus : ((space.modify i (LargeFrameDescriptor.giveSmall s)).map i).status =
      space.statusOf i := by
    rw [map_modify_self]
    rfl
  have hcount : ((space.modify i (LargeFrameDescriptor.giveSmall s)).map i).extras.freeCount =
      ((space.map i).giveSmall s).extras.freeCount := by
    rw [map_modify_self]
  rcases hsplit with hsplit | hfull
  · rw [if_neg (by rw [hstatus, hsplit]; simp)]
    by_cases hc : ((space.map i).giveSmall s).extras.freeCount = subDescriptorsCount
    · rw [if_pos (hcount.trans hc)]
      exact hinv.give_whole hi hs hsplit hused hc rfl
    · rw [if_neg fun h => hc (hcount.symm.trans h)]
      exact hinv.give_split hi hs hsplit hused hc
  · rw [if_pos (hstatus.trans hfull)]
    exact hinv.give_full hi hs hfull hused rfl

end ReleaseSmall

/-! ## `Mingle` -/

/-- What the caller sees of a frame being freed. -/
def Frees (diff : Int) (out : HandleResult × Nat × FrameAllocationSpace) : Bool :=
  out.1 = .okay ∧ (diff = 0 ∨ out.2.1 = 0)

/-- A test that lets the frame go is seen by the caller as such. -/
theorem frees_of_test {newCnt newCnt' : Nat} {diff : Int} {ignoreRefCnt : Bool}
    {d d' : FrameDescriptor} (htest : test newCnt diff ignoreRefCnt d = (true, newCnt', d'))
    (out : FrameAllocationSpace) : Frees diff (.okay, newCnt', out) = true := by
  by_cases hdiff : diff = 0
  · simp [Frees, hdiff]
  · have := test_freed htest hdiff
    simp [Frees, decide_eq_true_iff.mp this.symm]

theorem not_frees_of_test {newCnt newCnt' : Nat} {diff : Int} {ignoreRefCnt : Bool}
    {d d' : FrameDescriptor} (htest : test newCnt diff ignoreRefCnt d = (false, newCnt', d'))
    (out : FrameAllocationSpace) :
    Frees diff (if diff = 0 then .pageInUse else .okay, newCnt', out) = false := by
  by_cases hdiff : diff = 0
  · simp [Frees, hdiff]
  · have := test_freed htest hdiff
    simp [Frees, hdiff, decide_eq_false_iff_not.mp this.symm]

variable {addr : Nat}

theorem Inv.mingleLarge (hinv : space.Inv) (hi : i < space.largeFrameCount)
    (hidx : space.largeIndex addr = i) (hused : space.statusOf i = .used) (newCnt : Nat)
    (diff : Int) (ignoreRefCnt : Bool) :
    (space.mingleLarge i newCnt diff ignoreRefCnt).2.2.Inv ∧
      Mingles space addr (Frees diff (space.mingleLarge i newCnt diff ignoreRefCnt))
        (space.mingleLarge i newCnt diff ignoreRefCnt).2.2 := by
  unfold FrameAllocationSpace.mingleLarge
  have hkeep := status_test newCnt diff ignoreRefCnt (space.map i).toFrameDescriptor
  cases htest : test newCnt diff ignoreRefCnt (space.map i).toFrameDescriptor with
  | mk freed rest =>
      obtain ⟨newCnt', d⟩ := rest
      rw [htest] at hkeep
      have hinner : (space.map i).Inner { space.map i with toFrameDescriptor := d } :=
        ⟨hkeep, rfl, rfl, rfl⟩
      have hloc := local_modify space i fun l => { l with toFrameDescriptor := d }
      have hstatus : (space.modify i fun l => { l with toFrameDescriptor := d }).statusOf i =
          .used := (Inner.lists hinner i).2.2.trans hused
      have hinv' : (space.modify i fun l => { l with toFrameDescriptor := d }).Inv := by
        refine hinv.modify_inner hinner (fun h => ?_) fun htr => (hinv.trailing i htr).2
        rw [hused] at h
        rcases h with h | h <;> cases h
      cases freed with
      | true =>
          refine ⟨hinv'.pushLarge hi hstatus, ?_⟩
          simp only [if_true]
          rw [frees_of_test htest]
          refine .freeLarge hidx hi hused ?_ (hloc.trans (local_pushLarge _ i))
          rw [statusOf_pushLarge, if_pos rfl]
      | false =>
          refine ⟨hinv', ?_⟩
          simp only [Bool.false_eq_true, if_false]
          rw [not_frees_of_test htest]
          exact .countLarge hidx hi hused hstatus hloc

theorem Inv.mingleSmall {s : Nat} (hinv : space.Inv) (hi : i < space.largeFrameCount)
    (hidx : space.largeIndex addr = i) (hsidx : smallIndex addr = s)
    (hsplit : (space.statusOf i).IsSplit) (newCnt : Nat) (diff : Int) (ignoreRefCnt : Bool) :
    (space.mingleSmall i s newCnt diff ignoreRefCnt).2.2.Inv ∧
      Mingles space addr (Frees diff (space.mingleSmall i s newCnt diff ignoreRefCnt))
        (space.mingleSmall i s newCnt diff ignoreRefCnt).2.2 := by
  unfold FrameAllocationSpace.mingleSmall
  by_cases hs0 : s = 0
  · rw [if_pos hs0]
    exact ⟨hinv, .unchanged⟩
  rw [if_neg hs0]
  have hs : 1 ≤ s ∧ s ≤ subDescriptorsCount := by
    have : smallIndex addr < 512 := by
      unfold smallIndex
      rw [Nat.div_lt_iff_lt_mul (by decide)]
      exact Nat.mod_lt _ (by decide)
    unfold LargeFrameDescriptor.subDescriptorsCount
    omega
  simp only
  cases hstat : ((space.map i).small s).status with
  | free => exact ⟨hinv, .unchanged⟩
  | split => exact ⟨hinv, .unchanged⟩
  | full => exact ⟨hinv, .unchanged⟩
  | reserved => exact ⟨hinv, .unchanged⟩
  | used =>
      have hkeep := status_test newCnt diff ignoreRefCnt ((space.map i).small s).toFrameDescriptor
      cases htest : test newCnt diff ignoreRefCnt ((space.map i).small s).toFrameDescriptor with
      | mk freed rest =>
          obtain ⟨newCnt', d⟩ := rest
          rw [htest, hstat] at hkeep
          have hd : d.status = .used := hkeep
          generalize hsd : ({ (space.map i).small s with toFrameDescriptor := d } :
            SmallFrameDescriptor) = sd
          have hsdu : sd.status = .used := by rw [← hsd]; exact hd
          have hinner := LargeFrameDescriptor.inner_setSmall (space.map i) s sd
          have hloc := local_modify space i (LargeFrameDescriptor.setSmall s sd)
          have hsame : ∀ t, (((space.map i).setSmall s sd).small t).status =
              ((space.map i).small t).status := by
            intro t
            rw [LargeFrameDescriptor.small_setSmall]
            split
            next h => rw [h, hsdu, hstat]
            next => rfl
          have hinv' : (space.modify i (LargeFrameDescriptor.setSmall s sd)).Inv := by
            refine hinv.modify_inner hinner (fun h => ?_) fun htr => ?_
            · obtain ⟨xs, hstack, hfull, hlen⟩ := hinv.frames i hi h
              exact ⟨xs, hstack.setSmall (by rw [hstat]; simp) (by rw [hsdu]; simp), hfull, hlen⟩
            · rw [hsame]
              exact (hinv.trailing i htr).2
          have hsplit' : ((space.modify i (LargeFrameDescriptor.setSmall s sd)).statusOf
              i).IsSplit := by
            rw [(Inner.lists hinner i).2.2]
            exact hsplit
          have husedu : (((space.modify i (LargeFrameDescriptor.setSmall s sd)).map i).small
              s).status = .used := by
            rw [map_modify_self, hsame, hstat]
          cases freed with
          | true =>
              have hrel := hinv'.releaseSmall hi hs hsplit' husedu
              refine ⟨hrel.inv, ?_⟩
              simp only [if_true]
              rw [frees_of_test htest]
              have hloc' := hloc.trans hrel.loc
              rcases hrel.outcome with ⟨hsp, hout⟩ | ⟨hfr, hout⟩
              · refine .freeSmall hidx hsidx hi hs hsplit hstat hsp (fun t => ?_) hloc'
                rw [hout, map_modify_self, hsame]
              · refine .reclaim hidx hsidx hi hs hsplit hstat (fun t ht hne => ?_) hfr hloc'
                have := hout t ht hne
                rwa [map_modify_self, hsame] at this
          | false =>
              refine ⟨hinv', ?_⟩
              simp only [Bool.false_eq_true, if_false]
              rw [not_frees_of_test htest]
              refine .countSmall hidx hsidx hi hs hsplit hsplit' (fun t => ?_) hloc
              rw [map_modify_self, hsame]

/-- Release keeps the invariant and does nothing but what `Mingles` says. -/
theorem Inv.mingle (hinv : space.Inv) (addr newCnt : Nat) (diff : Int) (ignoreRefCnt : Bool) :
    (space.mingle addr newCnt diff ignoreRefCnt).2.2.Inv ∧
      Mingles space addr (Frees diff (space.mingle addr newCnt diff ignoreRefCnt))
        (space.mingle addr newCnt diff ignoreRefCnt).2.2 := by
  unfold FrameAllocationSpace.mingle
  by_cases hrange : addr < space.allocationStart ∨ addr ≥ space.allocationEnd
  · rw [if_pos hrange]
    exact ⟨hinv, .unchanged⟩
  rw [if_neg hrange]
  have hi := (hinv.largeIndex_lt addr (by omega)).2
  simp only
  cases hstat : (space.map (space.largeIndex addr)).status with
  | free => exact ⟨hinv, .unchanged⟩
  | used => exact hinv.mingleLarge hi rfl hstat newCnt diff ignoreRefCnt
  | split => exact hinv.mingleSmall hi rfl rfl (Or.inl hstat) newCnt diff ignoreRefCnt
  | full => exact hinv.mingleSmall hi rfl rfl (Or.inr hstat) newCnt diff ignoreRefCnt
  | reserved => exact ⟨hinv, .unchanged⟩

end Release

end FrameAllocationSpace

end Beelzebub.Memory
