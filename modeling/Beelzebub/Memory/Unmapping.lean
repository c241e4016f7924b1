import Beelzebub.Memory.Mapping

/-!
# Unmapping pages

`UnmapPage` nulls the entry of one page.  `UnmapRange` goes through a range in rounds, with
one of two strategies: once the data of the processor is set up, a round is a loop that
fills a list of up to 512 pages (`UnmapIteratively`); before, it is a recursion that keeps
its list on the stack (`UnmapRecursively`).  The reference counts of the frames are taken
down at the end of a round, from the last page to the first.

Locks and the invalidation of translations are left out; the latter always succeeds.
-/

namespace Beelzebub.Memory

open VmmArc PmlEntry

namespace Tables

/-! ## The code -/

/-- `TranslateInternal` with the callback that nulls the entry and tells the frame. -/
def unmapEntry (root vaddr : Nat) (t : Tables) : Option ((Nat × FrameSize) × Tables) :=
  if getPresent (t.mem root (getPml4Index vaddr)) = false then none
  else if getPresent (t.mem (t.pml3p root vaddr) (getPml3Index vaddr)) = false then none
  else
    let pml2e := t.mem (t.pml2p root vaddr) (getPml2Index vaddr)
    if getPresent pml2e = false then none
    else if getPageSize pml2e then
      some ((getAddress pml2e, ._2MiB), t.store (t.pml2p root vaddr) (getPml2Index vaddr) 0)
    else
      let pml1e := t.mem (t.pml1p root vaddr) (getPml1Index vaddr)
      if getPresent pml1e = false then none
      else some ((getAddress pml1e, ._4KiB), t.store (t.pml1p root vaddr) (getPml1Index vaddr) 0)

/-- `Vmm::UnmapPage`, with the frame that was mapped. -/
def unmapPage (as : AddressSpaces) (pagingTable vaddr : Nat) (countReferences : Bool)
    (t : Tables) : HandleResult × Option (Nat × FrameSize) × Tables :=
  if Illegal vaddr then (.pageMapIllegalRange, none, t)
  else
    match t.unmapEntry (as.root (Space.ofAddress pagingTable vaddr)) vaddr with
    | none => (.pageUnmapped, none, t)
    | some ((paddr, size), t) =>
        if countReferences then
          (.okay, some (paddr, size), { t with pmm := (t.pmm.adjustReferenceCount paddr (-1)).2 })
        else (.okay, some (paddr, size), t)

/-- The address behind a page.  It wraps behind a large page at the very top. -/
def nextAddress (vaddr : Nat) : FrameSize → Nat
  | ._4KiB => vaddr + pageSize
  | _ => (vaddr / largePageSize + 1) * largePageSize % 2 ^ 64

/-- Takes down the counts of a list of frames. -/
def release (frames : List Nat) (pmm : Pmm) : Pmm :=
  frames.foldl (fun pmm paddr => (pmm.adjustReferenceCount paddr (-1)).2) pmm

/-- The state of a walk: where it is, what the last attempt said, the frames it has met since
the round began (the last one first) and the tables. -/
structure Sweep where
  address : Nat
  res : HandleResult
  frames : List Nat
  t : Tables

/-- One attempt at a page. -/
def Sweep.attempt (root : Nat) (w : Sweep) : Sweep :=
  match w.t.unmapEntry root w.address with
  | none => { w with address := w.address + pageSize, res := .pageUnmapped }
  | some ((paddr, size), t) =>
      { address := nextAddress w.address size, res := .okay, frames := paddr :: w.frames, t }

/-- The most pages of an iterative round. -/
def unmapListMax : Nat := 512

/-- The loop of `UnmapIteratively`.  An attempt that finds nothing is repeated at the next
page without counting. -/
def sweep (root stop limit : Nat) : Nat → Sweep → Sweep
  | 0, w => w
  | n + 1, w =>
      if w.address < stop ∧ w.frames.length < limit then
        sweep root stop limit n (w.attempt root)
      else w

/-- What a caller of `UnmapRange` has done before and after every round, with a state of
its own.  Afterwards it is told where the round began, how far it went and its result. -/
structure Callbacks (σ : Type) where
  pre : Option (Nat → σ → σ)
  post : Option (Nat → Nat → HandleResult → σ → HandleResult × σ)

/-- The state between two rounds. -/
structure Unmapping (σ : Type) where
  address : Nat
  t : Tables
  cookie : σ

section Rounds

variable {σ : Type} (root stop : Nat) (countReferences : Bool) (cb : Callbacks σ)

def Callbacks.before (cb : Callbacks σ) (address : Nat) (cookie : σ) : σ :=
  match cb.pre with
  | none => cookie
  | some pre => pre address cookie

def Callbacks.after (cb : Callbacks σ) (start size : Nat) (res : HandleResult) (cookie : σ) :
    HandleResult × σ :=
  match cb.post with
  | none => (res, cookie)
  | some post => post start size res cookie

/-- The pages from an address up to the end of the range. -/
def pagesUpTo (address : Nat) : Nat := (stop - address + pageSize - 1) / pageSize

/-- The state after a round that has met some frames. -/
def Sweep.settle (w : Sweep) (cookie : σ) : Unmapping σ where
  address := w.address
  t := if countReferences then { w.t with pmm := release w.frames w.t.pmm } else w.t
  cookie := cookie

/-- What the end of a round does in `UnmapIteratively`: the callback has the last word. -/
def Sweep.finish (w : Sweep) (start : Nat) (cookie : σ) : HandleResult × Unmapping σ :=
  let (res, cookie) := cb.after start (w.address - start) w.res cookie
  (res, w.settle countReferences cookie)

/-- What the end of a round does in `UnmapRecursively`: the result of the callback is
dropped. -/
def Sweep.bail (w : Sweep) (start : Nat) (cookie : σ) : HandleResult × Unmapping σ :=
  let (_, cookie) := cb.after start (w.address - start) w.res cookie
  (w.res, w.settle countReferences cookie)

def unmapIteratively (state : Unmapping σ) : HandleResult × Unmapping σ :=
  let w := sweep root stop unmapListMax (pagesUpTo stop state.address)
    { address := state.address, res := .okay, frames := [], t := state.t }
  w.finish countReferences cb state.address state.cookie

def recursiveUnmapDepth : Nat := 32

/-- `UnmapRecursively`, in a round that began at some address. -/
def unmapRecursively (start : Nat) (cookie : σ) : Nat → Nat → Sweep → HandleResult × Unmapping σ
  | 0, _, w => w.bail countReferences cb start cookie
  | n + 1, depth, w =>
      let w := w.attempt root
      if w.res ≠ .okay then
        if w.address ≥ stop then w.bail countReferences cb start cookie
        else unmapRecursively start cookie n depth w
      else if w.address ≥ stop ∨ depth < recursiveUnmapDepth then
        w.bail countReferences cb start cookie
      else unmapRecursively start cookie n (depth + 1) w

/-- The loop of `UnmapRange` over its rounds. -/
def unmapRounds (round : Unmapping σ → HandleResult × Unmapping σ) :
    Nat → Unmapping σ → HandleResult × Unmapping σ
  | 0, state => (.okay, state)
  | n + 1, state =>
      let (res, state) := round { state with cookie := cb.before state.address state.cookie }
      if res ≠ .okay then (res, state)
      else if state.address < stop then unmapRounds round n state
      else (res, state)

/-- The rounds of a range with one of the strategies. -/
def unmapFrom (cpuDataSetUp : Bool) (state : Unmapping σ) : HandleResult × Unmapping σ :=
  unmapRounds stop cb
    (fun state =>
      if cpuDataSetUp then unmapIteratively root stop countReferences cb state
      else unmapRecursively root stop countReferences cb state.address state.cookie
        (pagesUpTo stop state.address + 1) 0
        { address := state.address, res := .okay, frames := [], t := state.t })
    (pagesUpTo stop state.address + 1) state

end Rounds

/-- Ranges in which nothing may be mapped, as far as they do not wrap around. -/
def IllegalRange (vaddr size : Nat) : Prop :=
  fractalStart < Word.add vaddr size ∧ vaddr < fractalEnd ∨
    lowerHalfEnd < Word.add vaddr size ∧ vaddr < higherHalfStart

instance (vaddr size : Nat) : Decidable (IllegalRange vaddr size) :=
  inferInstanceAs (Decidable (_ ∨ _))

/-- `Vmm::UnmapRange`. -/
def unmapRange {σ : Type} (as : AddressSpaces) (cpuDataSetUp : Bool)
    (pagingTable vaddr size : Nat) (countReferences : Bool) (cb : Callbacks σ) (cookie : σ)
    (t : Tables) : HandleResult × Tables × σ :=
  if IllegalRange vaddr size then (.pageMapIllegalRange, t, cookie)
  else if size = 0 then (.argumentOutOfRange, t, cookie)
  else if ¬is4KiBAligned vaddr ∨ ¬is4KiBAligned size then (.alignmentFailure, t, cookie)
  else
    let (res, state) := unmapFrom (as.root (Space.ofAddress pagingTable vaddr))
      (Word.add vaddr size) countReferences cb cpuDataSetUp { address := vaddr, t, cookie }
    (res, state.t, state.cookie)

variable {t t' t₁ : Tables} {w w' : Sweep} {root stop limit n a v : Nat} {paddr : Nat}
  {size : FrameSize} {res res' : HandleResult} {frames fs : List Nat} {pmm : Pmm}

/-! ## Ranges -/

/-- A range that passes the check, and does not wrap, is in one part. -/
theorem covers_of_range (pagingTable : Nat) {n k : Nat} (hlegal : ¬IllegalRange v n)
    (hwrap : v + n < 2 ^ 64) (hk : k < n) :
    Space.ofAddress pagingTable (v + k) = Space.ofAddress pagingTable v ∧
      (Space.ofAddress pagingTable v).Covers (v + k) ∧ ¬Illegal (v + k) := by
  unfold IllegalRange at hlegal
  rw [Word.add_of_lt hwrap] at hlegal
  have hlegal' : ¬Illegal (v + k) := by
    unfold Illegal
    omega
  have hsame : Space.ofAddress pagingTable (v + k) = Space.ofAddress pagingTable v := by
    have hbounds : lowerHalfEnd ≤ higherHalfStart := by decide
    unfold Space.ofAddress
    by_cases hlow : v < lowerHalfEnd
    · rw [if_pos hlow, if_pos (by omega)]
    · rw [if_neg hlow, if_neg (by omega)]
  refine ⟨hsame, ?_, hlegal'⟩
  rw [← hsame]
  exact Space.covers_ofAddress pagingTable (by omega) hlegal'

/-! ## One attempt -/

/-- The page at an address, with the place of its entry. -/
theorem unmapEntry_cases (t : Tables) (root v : Nat) :
    (t.unmapEntry root v = none ∧ t.translate root v = none) ∨
    (t.HasPml4e root v ∧ t.HasPml3e root v ∧ t.HasPml2e root v ∧ t.IsLarge root v ∧
      t.unmapEntry root v = some ((getAddress (t.mem (t.pml2p root v) (getPml2Index v)), ._2MiB),
        t.store (t.pml2p root v) (getPml2Index v) 0)) ∨
    (t.HasPml4e root v ∧ t.HasPml3e root v ∧ t.HasPml2e root v ∧ ¬t.IsLarge root v ∧
      t.HasPml1e root v ∧
      t.unmapEntry root v = some ((getAddress (t.mem (t.pml1p root v) (getPml1Index v)), ._4KiB),
        t.store (t.pml1p root v) (getPml1Index v) 0)) := by
  rw [translate_eq_none_iff]
  unfold unmapEntry HasPml4e HasPml3e HasPml2e IsLarge HasPml1e
  simp only
  split
  next h4 => exact Or.inl ⟨rfl, by simp [h4]⟩
  next h4 =>
    split
    next h3 => exact Or.inl ⟨rfl, by simp [h3]⟩
    next h3 =>
      split
      next h2 => exact Or.inl ⟨rfl, by simp [h2]⟩
      next h2 =>
        rw [Bool.not_eq_false] at h4 h3 h2
        split
        next hlarge => exact Or.inr (Or.inl ⟨h4, h3, h2, hlarge, rfl⟩)
        next hlarge =>
          split
          next h1 => exact Or.inl ⟨rfl, by simp [h1, hlarge]⟩
          next h1 =>
            rw [Bool.not_eq_false] at h1
            exact Or.inr (Or.inr ⟨h4, h3, h2, hlarge, h1, rfl⟩)

/-- Only the entry is stored. -/
theorem unmapEntry_store (h : t.unmapEntry root v = some ((paddr, size), t')) :
    ∃ f i, getPresent (t.mem f i) = true ∧ getAddress (t.mem f i) = paddr ∧ t' = t.store f i 0 := by
  rcases unmapEntry_cases t root v with ⟨hn, -⟩ | ⟨-, -, h2, -, hs⟩ | ⟨-, -, -, -, h1, hs⟩
  · rw [hn] at h
    cases h
  · rw [hs] at h
    cases h
    exact ⟨_, _, h2, rfl, rfl⟩
  · rw [hs] at h
    cases h
    exact ⟨_, _, h1, rfl, rfl⟩

theorem unmapEntry_pmm (h : t.unmapEntry root v = some ((paddr, size), t')) : t'.pmm = t.pmm := by
  obtain ⟨f, i, -, -, rfl⟩ := unmapEntry_store h
  rfl

/-- The allocator is not asked. -/
theorem unmapEntry_with (root v : Nat) (t : Tables) (pmm : Pmm) :
    unmapEntry root v { t with pmm } =
      (t.unmapEntry root v).map fun out => (out.1, { out.2 with pmm }) := by
  unfold unmapEntry
  simp only [apply_ite (Option.map _), Option.map_none, Option.map_some]
  rfl

theorem unmapEntry_size (h : t.unmapEntry root v = some ((paddr, size), t')) :
    size = ._4KiB ∨ size = ._2MiB := by
  rcases unmapEntry_cases t root v with ⟨hn, -⟩ | ⟨-, -, -, -, hs⟩ | ⟨-, -, -, -, -, hs⟩
  · rw [hn] at h
    cases h
  · rw [hs] at h
    cases h
    exact Or.inr rfl
  · rw [hs] at h
    cases h
    exact Or.inl rfl

/-! ## Walks -/

theorem nextAddress_small (a : Nat) : nextAddress a ._4KiB = a + pageSize := rfl

theorem nextAddress_large (a : Nat) :
    nextAddress a ._2MiB = (a / largePageSize + 1) * largePageSize % 2 ^ 64 := rfl

/-- The end of the last large page that a range touches. -/
def reach (stop : Nat) : Nat := (stop + largePageSize - 1) / largePageSize * largePageSize

/-- Where a walk may be. -/
structure OnPage (stop a : Nat) : Prop where
  aligned : a % pageSize = 0
  bound : a ≤ reach stop

section Bounded

variable (hstop : stop + largePageSize ≤ 2 ^ 64)

include hstop

theorem nextAddress_spec (hsize : size = ._4KiB ∨ size = ._2MiB) (ha : OnPage stop a)
    (hlt : a < stop) :
    a + pageSize ≤ nextAddress a size ∧ OnPage stop (nextAddress a size) := by
  obtain ⟨haligned, -⟩ := ha
  unfold largePageSize at hstop
  unfold pageSize at haligned
  rcases hsize with rfl | rfl
  · rw [nextAddress_small]
    unfold pageSize
    refine ⟨Nat.le_refl _, ?_, ?_⟩
    · unfold pageSize
      omega
    · unfold reach largePageSize
      omega
  · rw [nextAddress_large]
    unfold pageSize largePageSize
    refine ⟨by omega, ?_, ?_⟩
    · unfold pageSize
      omega
    · unfold reach largePageSize
      omega

/-- An attempt goes on to a later page. -/
theorem Sweep.attempt_spec (root : Nat) (w : Sweep) (ha : OnPage stop w.address)
    (hlt : w.address < stop) :
    w.address + pageSize ≤ (w.attempt root).address ∧ OnPage stop (w.attempt root).address := by
  unfold attempt
  split
  next =>
    have hsize : FrameSize._4KiB = ._4KiB ∨ FrameSize._4KiB = ._2MiB := Or.inl rfl
    exact nextAddress_spec hstop hsize ha hlt
  next hentry => exact nextAddress_spec hstop (unmapEntry_size hentry) ha hlt

end Bounded

theorem pagesUpTo_lt {b : Nat} (hlt : a < stop) (hb : a + pageSize ≤ b) :
    pagesUpTo stop b < pagesUpTo stop a := by
  unfold pagesUpTo pageSize at *
  omega

/-- What every attempt keeps, a loop keeps. -/
theorem sweep_induct {P : Sweep → Prop} (root stop limit n : Nat) (w : Sweep) (h : P w)
    (hattempt : ∀ w, w.address < stop → w.frames.length < limit → P w → P (w.attempt root)) :
    P (sweep root stop limit n w) := by
  induction n generalizing w with
  | zero => exact h
  | succ n ih =>
      rw [sweep]
      split
      next hmore => exact ih _ (hattempt w hmore.1 hmore.2 h)
      next => exact h

theorem sweep_of_not (n : Nat) (h : ¬(w.address < stop ∧ w.frames.length < limit)) :
    sweep root stop limit n w = w := by
  cases n with
  | zero => rfl
  | succ n => rw [sweep, if_neg h]

section Progress

variable {P : Sweep → Prop} (hattempt : ∀ w, P w → w.address < stop →
  P (w.attempt root) ∧ w.address + pageSize ≤ (w.attempt root).address)

include hattempt

/-- A loop whose attempts go on ends at the end of the range, or with a full list. -/
theorem sweep_exit_of (limit : Nat) (h : P w) (hn : pagesUpTo stop w.address ≤ n) :
    ¬((sweep root stop limit n w).address < stop ∧
      (sweep root stop limit n w).frames.length < limit) := by
  induction n generalizing w with
  | zero =>
      intro hmore
      have hlt : w.address < stop := hmore.1
      have := pagesUpTo_lt hlt (Nat.le_refl _)
      omega
  | succ n ih =>
      rw [sweep]
      split
      next hmore =>
        obtain ⟨h', hnext⟩ := hattempt w h hmore.1
        have := pagesUpTo_lt hmore.1 hnext
        exact ih h' (by omega)
      next hmore => exact hmore

/-- Such a loop makes progress, and a list that is full says that all went well. -/
theorem sweep_progress (limit : Nat) (hlimit : 0 < limit) (h : P w) (hlt : w.address < stop)
    (hfresh : w.frames = []) (hn : pagesUpTo stop w.address ≤ n) :
    P (sweep root stop limit n w) ∧ w.address + pageSize ≤ (sweep root stop limit n w).address ∧
      ((sweep root stop limit n w).address < stop → (sweep root stop limit n w).res = .okay) ∧
      ((sweep root stop limit n w).res = .okay ∨
        (sweep root stop limit n w).res = .pageUnmapped) := by
  have hexit := sweep_exit_of hattempt limit h hn
  have hkept : P (sweep root stop limit n w) ∧ (sweep root stop limit n w = w ∨
      w.address + pageSize ≤ (sweep root stop limit n w).address ∧
      ((sweep root stop limit n w).res = .okay ∨
        (sweep root stop limit n w).res = .pageUnmapped ∧
        (sweep root stop limit n w).frames.length < limit)) := by
    refine sweep_induct (P := fun x => P x ∧ (x = w ∨ w.address + pageSize ≤ x.address ∧
      (x.res = .okay ∨ x.res = .pageUnmapped ∧ x.frames.length < limit))) root stop limit n w
      ⟨h, Or.inl rfl⟩ fun x hlt hlen hx => ?_
    have hle : w.address ≤ x.address := by
      rcases hx.2 with rfl | ⟨hle, -⟩
      · exact Nat.le_refl _
      · omega
    obtain ⟨h', hnext⟩ := hattempt x hx.1 hlt
    refine ⟨h', Or.inr ⟨by omega, ?_⟩⟩
    unfold Sweep.attempt
    split
    next => exact Or.inr ⟨rfl, hlen⟩
    next => exact Or.inl rfl
  obtain ⟨h', heq | ⟨hprogress, hres⟩⟩ := hkept
  · refine absurd ⟨?_, ?_⟩ hexit
    · rw [heq]
      exact hlt
    · rw [heq, hfresh]
      exact hlimit
  · refine ⟨h', hprogress, fun hmore => ?_, hres.imp_right And.left⟩
    rcases hres with hokay | ⟨-, hlen⟩
    · exact hokay
    · exact absurd ⟨hmore, hlen⟩ hexit

end Progress

theorem onPage_attempt (hstop : stop + largePageSize ≤ 2 ^ 64) (root : Nat) (w : Sweep)
    (ha : OnPage stop w.address) (hlt : w.address < stop) :
    OnPage stop (w.attempt root).address ∧ w.address + pageSize ≤ (w.attempt root).address :=
  (w.attempt_spec hstop root ha hlt).symm

theorem sweep_exit (hstop : stop + largePageSize ≤ 2 ^ 64) (root limit : Nat)
    (ha : OnPage stop w.address) (hn : pagesUpTo stop w.address ≤ n) :
    ¬((sweep root stop limit n w).address < stop ∧
      (sweep root stop limit n w).frames.length < limit) :=
  sweep_exit_of (P := fun w => OnPage stop w.address) (onPage_attempt hstop root) limit ha hn

/-- The end of a round. -/
structure Rounded (stop start : Nat) (w : Sweep) : Prop where
  page : OnPage stop w.address
  progress : start + pageSize ≤ w.address
  full : w.address < stop → w.res = .okay
  result : w.res = .okay ∨ w.res = .pageUnmapped

theorem rounded_sweep (hstop : stop + largePageSize ≤ 2 ^ 64) (root limit : Nat)
    (hlimit : 0 < limit) (ha : OnPage stop w.address) (hlt : w.address < stop)
    (hfresh : w.frames = []) (hn : pagesUpTo stop w.address ≤ n) :
    Rounded stop w.address (sweep root stop limit n w) := by
  obtain ⟨hpage, hprogress, hfull, hresult⟩ := sweep_progress
    (P := fun w => OnPage stop w.address) (onPage_attempt hstop root) limit hlimit ha hlt hfresh hn
  exact ⟨hpage, hprogress, hfull, hresult⟩

/-- A recursive round stops at its first page: its test of the depth is the wrong way
around. -/
theorem unmapRecursively_eq {σ : Type} (root stop : Nat) (countReferences : Bool)
    (cb : Callbacks σ) (start : Nat) (cookie : σ) (n : Nat) (w : Sweep) (hlt : w.address < stop)
    (hfresh : w.frames = []) :
    unmapRecursively root stop countReferences cb start cookie n 0 w =
      (sweep root stop 1 n w).bail countReferences cb start cookie := by
  induction n generalizing w with
  | zero => rfl
  | succ n ih =>
      have hsweep : sweep root stop 1 (n + 1) w = sweep root stop 1 n (w.attempt root) := by
        rw [sweep, if_pos ⟨hlt, by rw [hfresh]; exact Nat.one_pos⟩]
      rw [unmapRecursively, hsweep]
      have hattempt : ((w.attempt root).res = .pageUnmapped ∧ (w.attempt root).frames = []) ∨
          ((w.attempt root).res = .okay ∧ (w.attempt root).frames.length = 1) := by
        unfold Sweep.attempt
        split
        next => exact Or.inl ⟨rfl, hfresh⟩
        next => exact Or.inr ⟨rfl, by rw [hfresh]; rfl⟩
      rcases hattempt with ⟨hres, hframes⟩ | ⟨hres, hframes⟩
      · rw [if_pos (by rw [hres]; simp)]
        split
        next hend => rw [sweep_of_not n fun hmore => Nat.not_lt.mpr hend hmore.1]
        next hend => exact ih _ (Nat.not_le.mp hend) hframes
      · rw [if_neg (by simp [hres]), if_pos (Or.inr (by decide)),
          sweep_of_not n fun hmore => absurd hmore.2 (by rw [hframes]; simp)]

end Tables

end Beelzebub.Memory
