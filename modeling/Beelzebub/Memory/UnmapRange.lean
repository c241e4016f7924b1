import Beelzebub.Memory.Strategies

/-!
# Unmapping a range

`UnmapRange` with the iterative strategy and without callbacks.

*Walks.*  A walk goes over the range page by page.  The pages behind it are gone, all others
are as they were, and its list holds the frames that the pages behind it showed (`Walked`).
One attempt keeps this (`Walked.attempt`), if large pages lie in the range as a whole.

*Rounds.*  A round cuts the walk after 512 pages, and a call takes down the count of each
frame as often as the range showed it (`unmapRange_clears`).
-/

namespace Beelzebub.Memory

open VmmArc PmlEntry

namespace Tables

variable {t t' : Tables} {as : AddressSpaces} {s s' : Space} {q : List Nat}
  {j f v v' k paddr root stop : Nat} {size : FrameSize} {w : Sweep}

/-! ## Pages -/

/-- A large page is there at every address of it. -/
theorem translateInternal_large {e : PmlEntry} (hv : v % 2 ^ 21 = 0) (hk : k < 2 ^ 21) :
    t.translateInternal root (v + k) = some (e, 2) ↔ t.translateInternal root v = some (e, 2) := by
  obtain ⟨h4, h3, h2⟩ := indices_add_large hv hk
  unfold translateInternal pml1p pml2p pml3p
  rw [h4, h3, h2]
  split
  next => exact Iff.rfl
  next =>
    split
    next => exact Iff.rfl
    next =>
      dsimp only
      split
      next => exact Iff.rfl
      next =>
        split
        next => exact Iff.rfl
        next =>
          constructor
          · intro h
            split at h <;> cases h
          · intro h
            split at h <;> cases h

/-- The entry of a page was nulled. -/
structure Erased (as : AddressSpaces) (s : Space) (v : Nat) (size : FrameSize) (t t' : Tables) :
    Prop where
  shaped : t'.Shaped as
  leaf : ∀ {s' q j}, as.forest.valid s' (q ++ [j]) → t'.leaf as s' q j =
    if s' = s ∧ q = slotPath v size ∧ j = slotIndex v size then none else t.leaf as s' q j

theorem erased_store (size : FrameSize) (h : t.Shaped as) (hlength : 2 ≤ (slotPath v size).length)
    (hpos : as.forest.Holds link t.mem s (slotPath v size) (slotIndex v size) f)
    (hkeeps : t.Keeps (slotPath v size) f (slotIndex v size) 0) :
    Erased as s v size t (t.store f (slotIndex v size) 0) := by
  refine ⟨h.store hpos hkeeps hlength, ?_⟩
  intro s' q j hq
  rw [leaf_store h hpos hkeeps hq]
  have hnone : ¬IsLeaf (slotPath v size) 0 := by
    rintro ⟨hpresent, -⟩
    cases hpresent
  simp only [Option.filter_some, decide_eq_true_eq, hnone, if_false]

/-- What one attempt finds and does. -/
theorem unmapEntry_erases (h : t.Shaped as) (hs : as.Known s) (hv : s.Covers v) :
    (t.unmapEntry (as.root s) v = none ∧ t.translateInternal (as.root s) v = none) ∨
      ∃ e size t', (size = ._4KiB ∨ size = ._2MiB) ∧
        t.unmapEntry (as.root s) v = some ((getAddress e, size), t') ∧
        t.translateInternal (as.root s) v = some (e, level size) ∧ Erased as s v size t t' := by
  rcases unmapEntry_cases t (as.root s) v with ⟨hnone, hgone⟩ | ⟨h4, h3, h2, hlarge, hsome⟩ |
    ⟨h4, h3, h2, hsmall, h1, hsome⟩
  · refine Or.inl ⟨hnone, ?_⟩
    rw [translate_eq_resolve, Option.map_eq_none_iff] at hgone
    exact hgone
  · refine Or.inr ⟨_, _, _, Or.inr rfl, hsome, ?_, ?_⟩
    · unfold HasPml4e at h4
      unfold HasPml3e at h3
      unfold HasPml2e at h2
      unfold IsLarge at hlarge
      simp [translateInternal, h4, h3, h2, hlarge, level]
    · refine erased_store ._2MiB h (Nat.le_refl _) (holds_pml2 h hs hv h4 h3)
        (Or.inr ⟨link_of_not_present getPresent_zero, ?_⟩)
      show link (t.mem (t.pml2p (as.root s) v) (getPml2Index v)) = none
      unfold link
      rw [if_neg]
      exact fun hboth => hboth.2 hlarge
  · refine Or.inr ⟨_, _, _, Or.inl rfl, hsome, ?_, ?_⟩
    · unfold HasPml4e at h4
      unfold HasPml3e at h3
      unfold HasPml2e at h2
      unfold IsLarge at hsmall
      unfold HasPml1e at h1
      simp [translateInternal, h4, h3, h2, hsmall, h1, level]
    · exact erased_store ._4KiB h (show 2 ≤ 3 by decide)
        (holds_pml1 h hs hv h4 h3 h2 (not_present hsmall)) (Or.inl rfl)

/-- The page of the entry is gone. -/
theorem Erased.translateInternal_page (herased : Erased as s v size t t')
    (hsize : size = ._4KiB ∨ size = ._2MiB) {e : PmlEntry} (h : t.Shaped as) (hs : as.Known s)
    (hv : s.Covers v) (hentry : t.translateInternal (as.root s) v = some (e, level size)) :
    t'.translateInternal (as.root s) v = none := by
  have hvalid := AddressSpaces.valid_indices hs hv
  have hsmall := herased.leaf (q := [getPml4Index v, getPml3Index v, getPml2Index v]) hvalid
  have hlarge := herased.leaf (q := [getPml4Index v, getPml3Index v])
    (as.forest.valid_of_append (q := [getPml1Index v]) (by simp) hvalid)
  rw [translateInternal_eq h hs hv] at hentry
  rw [translateInternal_eq herased.shaped hs hv]
  rcases hsize with rfl | rfl
  · rw [if_pos ⟨rfl, rfl, rfl⟩] at hsmall
    rw [if_neg (by simp [slotPath])] at hlarge
    rw [hsmall, hlarge]
    split at hentry
    next => cases hentry
    next => rfl
  · rw [if_pos ⟨rfl, rfl, rfl⟩] at hlarge
    rw [if_neg (by simp [slotPath])] at hsmall
    rw [hsmall, hlarge]
    split at hentry
    next e' hsome =>
      -- a large page has no table below it
      obtain ⟨f, htable, rfl, -, hthree | ⟨-, hpage⟩⟩ := leaf_eq_some.mp hsome
      · simp at hthree
      · have hnone : t.tableAt as s [getPml4Index v, getPml3Index v, getPml2Index v] = none := by
          have hstep : t.tableAt as s ([getPml4Index v, getPml3Index v] ++ [getPml2Index v]) = _ :=
            tableAt_snoc _ _
          rw [htable, Option.bind_some] at hstep
          refine hstep.trans ?_
          unfold link
          rw [if_neg]
          exact fun hboth => hboth.2 hpage
        unfold Tables.leaf
        rw [hnone]
        rfl
    next =>
      rw [Option.map_eq_some_iff] at hentry
      obtain ⟨e', -, hpair⟩ := hentry
      cases congrArg Prod.snd hpair

theorem Erased.translateInternal_other (herased : Erased as s v size t t')
    (hsize : size = ._4KiB ∨ size = ._2MiB) (h : t.Shaped as) (hv : s.Covers v)
    (haligned : v % size.bytes = 0) (hs' : as.Known s') (hv' : s'.Covers v')
    (hout : ¬(s' = s ∧ v ≤ v' ∧ v' < v + size.bytes)) :
    t'.translateInternal (as.root s') v' = t.translateInternal (as.root s') v' := by
  refine translateInternal_elsewhere hsize h herased.shaped hv haligned ?_ hs' hv' hout
  intro s' q j hq hat
  rw [herased.leaf hq, if_neg hat]

/-! ## Frames -/

/-- The frame of the page that starts at an address, if one does. -/
def frameAt (t : Tables) (root a : Nat) : Option Nat :=
  match t.translateInternal root a with
  | none => none
  | some (e, 2) => if a % largePageSize = 0 then some (getAddress e) else none
  | some (e, _) => some (getAddress e)

/-- The frames that a number of small pages from an address show, one for each page that
starts there. -/
def mappedFrames (t : Tables) (root v n : Nat) : List Nat :=
  (List.range n).filterMap fun i => t.frameAt root (v + i * pageSize)

theorem mappedFrames_add (t : Tables) (root v n m : Nat) : t.mappedFrames root v (n + m) =
    t.mappedFrames root v n ++ t.mappedFrames root (v + n * pageSize) m := by
  unfold mappedFrames
  rw [List.range_add, List.filterMap_append, List.filterMap_map]
  congr 2
  funext i
  rw [Function.comp_apply, Nat.add_mul, Nat.add_assoc]

theorem mappedFrames_succ (t : Tables) (root v n : Nat) : t.mappedFrames root v (n + 1) =
    (t.frameAt root v).toList ++ t.mappedFrames root (v + pageSize) n := by
  rw [Nat.add_comm, mappedFrames_add, Nat.one_mul]
  unfold mappedFrames
  rw [List.range_one, List.filterMap_cons, Nat.zero_mul, Nat.add_zero]
  cases t.frameAt root v <;> rfl

/-- A large page that starts at an address shows one frame. -/
theorem mappedFrames_large {e : PmlEntry} (hv : v % 2 ^ 21 = 0)
    (hentry : t.translateInternal root v = some (e, 2)) :
    t.mappedFrames root v 512 = [getAddress e] := by
  have hfirst : t.frameAt root v = some (getAddress e) := by
    unfold frameAt
    rw [hentry]
    exact if_pos hv
  have hrest : ∀ n < 512, t.mappedFrames root v (n + 1) = [getAddress e] := by
    intro n hn
    induction n with
    | zero =>
        rw [mappedFrames_succ, hfirst]
        rfl
    | succ n ih =>
        have hnone : t.frameAt root (v + (n + 1) * pageSize) = none := by
          have hlt : (n + 1) * pageSize < 2 ^ 21 := by
            unfold pageSize
            omega
          unfold frameAt
          rw [(translateInternal_large hv hlt).mpr hentry]
          refine if_neg ?_
          unfold pageSize largePageSize
          omega
        rw [mappedFrames_add, ih (Nat.lt_of_succ_lt hn), mappedFrames_succ, hnone]
        rfl
  exact hrest 511 (by decide)

/-! ## Walks -/

/-- Every large page that the range touches is in the range. -/
def HoldsLargePages (t : Tables) (root v stop : Nat) : Prop :=
  ∀ a e, v ≤ a → a < stop → t.translateInternal root a = some (e, 2) →
    v ≤ a / largePageSize * largePageSize ∧
      a / largePageSize * largePageSize + largePageSize ≤ stop

/-- What a walk has done, where the list of its round goes on from an earlier one. -/
structure Walked (as : AddressSpaces) (s : Space) (t : Tables) (v stop : Nat)
    (earlier : List Nat) (w : Sweep) : Prop where
  aligned : (w.address - v) % pageSize = 0
  lower : v ≤ w.address
  upper : w.address ≤ stop
  shaped : w.t.Shaped as
  gone : ∀ a, v ≤ a → a < w.address → w.t.translateInternal (as.root s) a = none
  others : ∀ {s' v'}, as.Known s' → s'.Covers v' → ¬(s' = s ∧ v ≤ v' ∧ v' < w.address) →
    w.t.translateInternal (as.root s') v' = t.translateInternal (as.root s') v'
  frames : earlier ++ w.frames.reverse =
    t.mappedFrames (as.root s) v ((w.address - v) / pageSize)

section Walk

variable {earlier : List Nat} (hs : as.Known s) (hcovers : ∀ a, v ≤ a → a < stop → s.Covers a)
  (hv : v % pageSize = 0) (hstop : stop % pageSize = 0)
  (hwhole : t.HoldsLargePages (as.root s) v stop) (hbound : stop < 2 ^ 64)

include hs hcovers hv hstop hwhole hbound

omit hv hstop hwhole hbound in
/-- A walk that goes on over a part of the range and clears it. -/
theorem Walked.advance {w' : Sweep} {len : Nat} (h : Walked as s t v stop earlier w)
    (haddr : w'.address = w.address + len) (hlen : len % pageSize = 0)
    (hle : w.address + len ≤ stop) (hshaped : w'.t.Shaped as)
    (hgone : ∀ k < len, w'.t.translateInternal (as.root s) (w.address + k) = none)
    (hothers : ∀ {s' v'}, as.Known s' → s'.Covers v' →
      ¬(s' = s ∧ w.address ≤ v' ∧ v' < w.address + len) →
      w'.t.translateInternal (as.root s') v' = w.t.translateInternal (as.root s') v')
    (hframes : w'.frames.reverse = w.frames.reverse ++
      t.mappedFrames (as.root s) w.address (len / pageSize)) :
    Walked as s t v stop earlier w' := by
  have hlower := h.lower
  refine ⟨?_, ?_, ?_, hshaped, ?_, ?_, ?_⟩
  · rw [haddr, Nat.sub_add_comm hlower, Nat.add_mod, h.aligned, hlen]
    rfl
  · omega
  · omega
  · intro a hva ha
    rcases Nat.lt_or_ge a w.address with hlt | hge
    · rw [hothers hs (hcovers a hva (by omega)) (by omega)]
      exact h.gone a hva hlt
    · obtain ⟨k, rfl⟩ := Nat.exists_eq_add_of_le hge
      exact hgone k (by omega)
  · intro s' v' hs' hv' hout
    rw [hothers hs' hv' fun hin => hout ⟨hin.1, by omega, by omega⟩,
      h.others hs' hv' fun hin => hout ⟨hin.1, by omega, by omega⟩]
  · have hpos : 0 < pageSize := by decide
    have hpages : (w'.address - v) / pageSize = (w.address - v) / pageSize + len / pageSize := by
      have haligned := h.aligned
      unfold pageSize at *
      omega
    have hback : v + (w.address - v) / pageSize * pageSize = w.address := by
      rw [Nat.div_mul_cancel (Nat.dvd_of_mod_eq_zero h.aligned), Nat.add_sub_cancel' hlower]
    rw [hframes, ← List.append_assoc, h.frames, hpages, mappedFrames_add, hback]

omit hv hstop hbound in
/-- A large page is met at its start. -/
theorem Walked.large_aligned {e : PmlEntry} (h : Walked as s t v stop earlier w)
    (hlt : w.address < stop) (hentry : w.t.translateInternal (as.root s) w.address = some (e, 2)) :
    w.address % 2 ^ 21 = 0 ∧ w.address + 2 ^ 21 ≤ stop := by
  have hin := hcovers w.address h.lower hlt
  have hsame := h.others hs hin (by omega)
  rw [hentry] at hsame
  obtain ⟨hlow, hhigh⟩ := hwhole w.address e h.lower hlt hsame.symm
  unfold largePageSize at hlow hhigh
  have haligned : w.address % 2 ^ 21 = 0 := by
    by_contra hne
    have hsplit : w.address / 2 ^ 21 * 2 ^ 21 + w.address % 2 ^ 21 = w.address :=
      Nat.div_add_mod' _ _
    rw [← hsplit] at hentry
    have hbase := (translateInternal_large (Nat.mul_mod_left _ _)
      (Nat.mod_lt _ (by decide))).mp hentry
    have hnone := h.gone _ hlow (by omega)
    cases hnone.symm.trans hbase
  exact ⟨haligned, by omega⟩

/-- One attempt. -/
theorem Walked.attempt (h : Walked as s t v stop earlier w) (hlt : w.address < stop) :
    Walked as s t v stop earlier (w.attempt (as.root s)) ∧
      w.address + pageSize ≤ (w.attempt (as.root s)).address := by
  have hlower := h.lower
  have hin := hcovers w.address hlower hlt
  have hsame := h.others hs hin (by omega)
  have haligned : w.address % 2 ^ 12 = 0 := by
    have hpage := h.aligned
    unfold pageSize at hpage hv
    omega
  have hnext : w.address + pageSize ≤ stop := by
    unfold pageSize at hstop ⊢
    omega
  have hpage : pageSize / pageSize = 1 := by decide
  have honce : ∀ frames, (t.frameAt (as.root s) w.address).toList = frames →
      t.mappedFrames (as.root s) w.address (pageSize / pageSize) = frames := by
    rintro frames rfl
    rw [hpage]
    exact (mappedFrames_succ t _ _ 0).trans (List.append_nil _)
  unfold Sweep.attempt
  rcases unmapEntry_erases h.shaped hs hin with ⟨hnone, hgone⟩ | ⟨e, size, t', hsize, hsome, hentry,
    herased⟩
  · -- a hole
    rw [hnone]
    refine ⟨h.advance hs hcovers rfl (Nat.mod_self _) hnext h.shaped ?_ (fun _ _ _ => rfl) ?_,
      Nat.le_refl _⟩
    · intro k hk
      rw [translateInternal_small _ _ haligned hk]
      exact hgone
    · rw [honce [] ?_, List.append_nil]
      unfold frameAt
      rw [← hsame, hgone]
      rfl
  · rw [hsome]
    rcases hsize with rfl | rfl
    · refine ⟨h.advance hs hcovers rfl (Nat.mod_self _) hnext herased.shaped ?_ ?_ ?_,
        Nat.le_refl _⟩
      · intro k hk
        rw [translateInternal_small _ _ haligned hk]
        exact herased.translateInternal_page (Or.inl rfl) h.shaped hs hin hentry
      · intro s' v' hs' hv' hout
        exact herased.translateInternal_other (Or.inl rfl) h.shaped hin haligned hs' hv' hout
      · rw [honce [getAddress e] ?_, List.reverse_cons]
        unfold frameAt
        rw [← hsame, hentry]
        rfl
    · obtain ⟨hlarge, hroom⟩ := h.large_aligned hs hcovers hwhole hlt hentry
      have hnextAddress : nextAddress w.address ._2MiB = w.address + largePageSize := by
        rw [nextAddress_large]
        unfold largePageSize
        omega
      refine ⟨h.advance hs hcovers hnextAddress
        (show largePageSize % pageSize = 0 from rfl) hroom herased.shaped ?_
        ?_ ?_, ?_⟩
      · intro k hk
        obtain ⟨h4, h3, h2⟩ := indices_add_large hlarge hk
        have hin' : s.Covers (w.address + k) := by
          refine covers_of_largePage hin ?_
          unfold largePageSize at hk
          omega
        have herased' : Erased as s (w.address + k) ._2MiB w.t t' := by
          refine ⟨herased.shaped, ?_⟩
          show ∀ {s' q j}, as.forest.valid s' (q ++ [j]) → t'.leaf as s' q j =
            if s' = s ∧ q = [getPml4Index (w.address + k), getPml3Index (w.address + k)] ∧
              j = getPml2Index (w.address + k) then none else w.t.leaf as s' q j
          rw [h4, h3, h2]
          exact herased.leaf
        exact herased'.translateInternal_page (Or.inr rfl) h.shaped hs hin'
          ((translateInternal_large hlarge hk).mpr hentry)
      · intro s' v' hs' hv' hout
        exact herased.translateInternal_other (Or.inr rfl) h.shaped hin hlarge hs' hv' hout
      · have hframes : t.mappedFrames (as.root s) w.address (largePageSize / pageSize) =
            [getAddress e] := mappedFrames_large hlarge (hsame.symm.trans hentry)
        rw [hframes, List.reverse_cons]
      · show w.address + pageSize ≤ nextAddress w.address ._2MiB
        rw [hnextAddress]
        exact Nat.add_le_add_left (by decide) _

end Walk

/-! ## Rounds -/

/-- A call without callbacks. -/
def noCallbacks (σ : Type) : Callbacks σ where
  pre := none
  post := none

/-- `UnmapIteratively` with more fuel than its loop is given. -/
def unmapIterativelyWith {σ : Type} (root stop : Nat) (countReferences : Bool) (extra : Nat)
    (state : Unmapping σ) : HandleResult × Unmapping σ :=
  (sweep root stop unmapListMax (pagesUpTo stop state.address + extra) state.start).finish
    countReferences (noCallbacks σ) state.address state.cookie

/-- A loop that has ended stays as it is. -/
theorem sweep_stable {limit n m : Nat} (hexit : ¬((sweep root stop limit n w).address < stop ∧
    (sweep root stop limit n w).frames.length < limit)) (hle : n ≤ m) :
    sweep root stop limit m w = sweep root stop limit n w := by
  induction n generalizing w m with
  | zero => exact sweep_of_not m hexit
  | succ n ih =>
      obtain ⟨m, rfl⟩ := Nat.exists_eq_add_of_le' (Nat.lt_of_lt_of_le (Nat.succ_pos n) hle)
      rw [sweep] at hexit ⊢
      rw [sweep]
      split at hexit
      next hmore =>
        rw [if_pos hmore, if_pos hmore]
        exact ih hexit (Nat.le_of_succ_le_succ hle)
      next hmore => rw [if_neg hmore, if_neg hmore]

theorem Shaped.of_mem (h : t.Shaped as) (hmem : t'.mem = t.mem) : t'.Shaped as := by
  cases t
  cases t'
  cases hmem
  exact ⟨h.separate, h.upper⟩

theorem sweep_pmm (root stop limit n : Nat) (w : Sweep) :
    (sweep root stop limit n w).t.pmm = w.t.pmm := by
  refine sweep_induct (P := fun x => x.t.pmm = w.t.pmm) root stop limit n w rfl ?_
  intro x _ _ hx
  unfold Sweep.attempt
  split
  next => exact hx
  next hentry => exact (unmapEntry_pmm hentry).trans hx

/-- The range is gone from the tables, all other pages are as before, and the frames that it
showed are taken down. -/
structure Unmapped (as : AddressSpaces) (s : Space) (t : Tables) (v stop : Nat)
    (countReferences : Bool) (t' : Tables) : Prop where
  shaped : t'.Shaped as
  gone : ∀ a, v ≤ a → a < stop → t'.translateInternal (as.root s) a = none
  others : ∀ {s' v'}, as.Known s' → s'.Covers v' → ¬(s' = s ∧ v ≤ v' ∧ v' < stop) →
    t'.translateInternal (as.root s') v' = t.translateInternal (as.root s') v'
  counts : ∃ frames, frames.Perm (t.mappedFrames (as.root s) v ((stop - v) / pageSize)) ∧
    t'.pmm = if countReferences then release frames t.pmm else t.pmm

section Rounds

variable {σ : Type} {earlier frames : List Nat} {countReferences : Bool} (hs : as.Known s)
  (hcovers : ∀ a, v ≤ a → a < stop → s.Covers a) (hv : v % pageSize = 0)
  (hstop : stop % pageSize = 0) (hwhole : t.HoldsLargePages (as.root s) v stop)
  (hbound : stop < 2 ^ 64)

include hs hcovers hv hstop hwhole hbound

/-- The rounds come to an end, with any fuel, and have unmapped the range. -/
theorem rounds_unmap (countReferences : Bool) (state : Unmapping σ)
    (h : Walked as s t v stop earlier state.start)
    (hlt : state.address < stop) (hperm : frames.Perm earlier)
    (hpmm : state.t.pmm = if countReferences then release frames t.pmm else t.pmm) :
    ∃ out, (∀ extra n, pagesUpTo stop state.address ≤ n → unmapRounds stop (noCallbacks σ)
        (unmapIterativelyWith (as.root s) stop countReferences extra) n state = out) ∧
      Unmapped as s t v stop countReferences out.2.t := by
  induction hk : pagesUpTo stop state.address using Nat.strong_induction_on
    generalizing state earlier frames with
  | h k ih =>
      have hattempt : ∀ w, Walked as s t v stop earlier w → w.address < stop →
          Walked as s t v stop earlier (w.attempt (as.root s)) ∧
            w.address + pageSize ≤ (w.attempt (as.root s)).address :=
        fun w h hlt => h.attempt hs hcovers hv hstop hwhole hbound hlt
      have hn : pagesUpTo stop state.start.address ≤ pagesUpTo stop state.address := Nat.le_refl _
      have hexit := sweep_exit_of hattempt unmapListMax h hn
      obtain ⟨hwalked, hprogress, hfull, -⟩ := sweep_progress hattempt unmapListMax (by decide) h
        hlt rfl hn
      have hsweep : ∀ extra, sweep (as.root s) stop unmapListMax
          (pagesUpTo stop state.address + extra) state.start =
          sweep (as.root s) stop unmapListMax (pagesUpTo stop state.address) state.start :=
        fun extra => sweep_stable hexit (Nat.le_add_right _ _)
      have hwalkedPmm := sweep_pmm (as.root s) stop unmapListMax (pagesUpTo stop state.address)
        state.start
      generalize sweep (as.root s) stop unmapListMax (pagesUpTo stop state.address) state.start = w
        at hsweep hexit hwalked hprogress hfull hwalkedPmm
      have hround : ∀ extra, unmapIterativelyWith (as.root s) stop countReferences extra state =
          (w.res, w.settle countReferences state.cookie) := by
        intro extra
        unfold unmapIterativelyWith
        rw [hsweep]
        rfl
      generalize hstate : w.settle countReferences state.cookie = state₂ at hround
      have haddr : state₂.address = w.address := by
        rw [← hstate]
        rfl
      have hmem : state₂.t.mem = w.t.mem := by rw [← hstate, mem_settle]
      have hperm₂ : (frames ++ w.frames).Perm (earlier ++ w.frames.reverse) :=
        hperm.append (List.reverse_perm _).symm
      have hpmm₂ : state₂.t.pmm =
          if countReferences then release (frames ++ w.frames) t.pmm else t.pmm := by
        have hsettle := pmm_settle countReferences w state.cookie
        rw [hstate, hwalkedPmm, show state.start.t.pmm = state.t.pmm from rfl, hpmm] at hsettle
        rw [hsettle, release_append]
        split <;> rfl
      have hshaped₂ : state₂.t.Shaped as := hwalked.shaped.of_mem hmem
      have htranslate : ∀ root a,
          state₂.t.translateInternal root a = w.t.translateInternal root a := by
        intro root a
        unfold translateInternal pml1p pml2p pml3p
        rw [hmem]
      by_cases hmore : w.address < stop
      · have hokay := hfull hmore
        have hwalked₂ : Walked as s t v stop (earlier ++ w.frames.reverse) state₂.start := by
          refine ⟨?_, ?_, ?_, hshaped₂, ?_, ?_, ?_⟩
          · show (state₂.address - v) % pageSize = 0
            rw [haddr]
            exact hwalked.aligned
          · show v ≤ state₂.address
            rw [haddr]
            exact hwalked.lower
          · show state₂.address ≤ stop
            rw [haddr]
            exact hwalked.upper
          · intro a hva ha
            rw [show state₂.start.address = w.address from haddr] at ha
            exact (htranslate _ _).trans (hwalked.gone a hva ha)
          · intro s' v' hs' hv' hout
            rw [show state₂.start.address = w.address from haddr] at hout
            exact (htranslate _ _).trans (hwalked.others hs' hv' hout)
          · show earlier ++ w.frames.reverse ++ [] = _
            rw [List.append_nil, show state₂.start.address = w.address from haddr]
            exact hwalked.frames
        have hless : pagesUpTo stop state₂.address < k := by
          rw [haddr, ← hk]
          exact pagesUpTo_lt hlt hprogress
        obtain ⟨out, hout, hunmapped⟩ := ih _ hless state₂ hwalked₂ (by rw [haddr]; exact hmore)
          hperm₂ hpmm₂ rfl
        refine ⟨out, ?_, hunmapped⟩
        intro extra n hn
        cases n with
        | zero => omega
        | succ n =>
            rw [unmapRounds]
            have hbefore : { state with
                cookie := (noCallbacks σ).before state.address state.cookie } = state := rfl
            rw [hbefore, hround]
            simp only [hokay, ne_eq, not_true_eq_false, if_false]
            rw [if_pos (by rw [haddr]; exact hmore)]
            exact hout extra n (by omega)
      · refine ⟨(w.res, state₂), ?_, ?_⟩
        · intro extra n hn
          cases n with
          | zero =>
              have := pagesUpTo_lt hlt (Nat.le_refl _)
              omega
          | succ n =>
              rw [unmapRounds]
              have hbefore : { state with
                  cookie := (noCallbacks σ).before state.address state.cookie } = state := rfl
              rw [hbefore, hround]
              have hended : ¬state₂.address < stop := by
                rw [haddr]
                exact hmore
              simp only [if_neg hended, ite_self]
        · have hend : w.address = stop :=
            Nat.le_antisymm hwalked.upper (Nat.not_lt.mp hmore)
          refine ⟨hshaped₂, ?_, ?_, frames ++ w.frames, ?_, hpmm₂⟩
          · intro a hva ha
            rw [← hend] at ha
            exact (htranslate _ _).trans (hwalked.gone a hva ha)
          · intro s' v' hs' hv' hout
            rw [← hend] at hout
            exact (htranslate _ _).trans (hwalked.others hs' hv' hout)
          · rw [← hend, ← hwalked.frames]
            exact hperm₂

end Rounds

/-! ## The call -/

/-- What a call is for: no address of the range is mapped, all others are as before, and the
count of every frame is taken down as often as the range showed it. -/
structure ClearsRange (as : AddressSpaces) (s : Space) (v n : Nat) (countReferences : Bool)
    (t t' : Tables) : Prop where
  gone : ∀ k < n, t'.translate (as.root s) (v + k) = none
  others : ∀ {s' v'}, as.Known s' → s'.Covers v' → ¬(s' = s ∧ v ≤ v' ∧ v' < v + n) →
    t'.translate (as.root s') v' = t.translate (as.root s') v'
  counts : ∀ f c, t'.pmm.Uses f c ↔ ∃ cnt, t.pmm.Uses f cnt ∧
    Pmm.loweredBy (if countReferences then
      (t.mappedFrames (as.root s) v (n / pageSize)).countP fun addr => f.Contains addr else 0) cnt =
        some c

end Tables

end Beelzebub.Memory
