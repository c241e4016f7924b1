import Beelzebub.Memory.Release

/-!
# The two strategies of `UnmapRange`

Both strategies attempt the pages of the range in the same order, and cut the walk into
rounds at other places.  What they do to the tables and the reference counts is the same as
long as every round is followed by the next.  They part where the callback after a round
changes the result: the iterative rounds end the walk on it, the recursive ones ignore it.
-/

namespace Beelzebub.Memory

open VmmArc PmlEntry

namespace Tables

variable {σ : Type} {t t' : Tables} {w w' w₁ w₂ : Sweep} {root stop limit n a v : Nat}
  {frames : List Nat} {pmm : Pmm} {countReferences : Bool} {cb : Callbacks σ}

/-! ## Uninterrupted walks -/

/-- A walk to the end of the range. -/
inductive Clears (root stop : Nat) : Sweep → Sweep → Prop
  | done {w : Sweep} : ¬w.address < stop → Clears root stop w w
  | attempt {w w' : Sweep} : w.address < stop → Clears root stop (w.attempt root) w' →
      Clears root stop w w'

theorem Clears.unique (h : Clears root stop w w₁) (h' : Clears root stop w w₂) : w₁ = w₂ := by
  induction h with
  | done hend =>
      cases h' with
      | done => rfl
      | attempt hlt _ => exact absurd hlt hend
  | attempt hlt _ ih =>
      cases h' with
      | done hend => exact absurd hlt hend
      | attempt _ h' => exact ih h'

theorem exists_clears (hstop : stop + largePageSize ≤ 2 ^ 64) (root : Nat) (w : Sweep)
    (ha : OnPage stop w.address) : ∃ w', Clears root stop w w' := by
  induction hn : pagesUpTo stop w.address using Nat.strong_induction_on generalizing w with
  | h n ih =>
      by_cases hlt : w.address < stop
      · obtain ⟨hnext, hpage⟩ := w.attempt_spec hstop root ha hlt
        have hless := pagesUpTo_lt hlt hnext
        obtain ⟨w', hw'⟩ := ih _ (hn ▸ hless) _ hpage rfl
        exact ⟨w', .attempt hlt hw'⟩
      · exact ⟨w, .done hlt⟩

/-- The loop of a round is the beginning of the walk. -/
theorem clears_of_sweep (h : Clears root stop (sweep root stop limit n w) w') :
    Clears root stop w w' := by
  induction n generalizing w with
  | zero => exact h
  | succ n ih =>
      rw [sweep] at h
      split at h
      next hmore => exact .attempt hmore.1 (ih h)
      next => exact h

/-- The same walk with frames from before and another allocator. -/
def Sweep.rebase (frames : List Nat) (pmm : Pmm) (w : Sweep) : Sweep :=
  { w with frames := w.frames ++ frames, t := { w.t with pmm } }

theorem Sweep.attempt_rebase (root : Nat) (frames : List Nat) (pmm : Pmm) (w : Sweep) :
    (w.rebase frames pmm).attempt root = (w.attempt root).rebase frames pmm := by
  unfold Sweep.attempt Sweep.rebase
  simp only [unmapEntry_with]
  cases w.t.unmapEntry root w.address with
  | none => rfl
  | some out => rfl

theorem Clears.rebase (h : Clears root stop w w') (frames : List Nat) (pmm : Pmm) :
    Clears root stop (w.rebase frames pmm) (w'.rebase frames pmm) := by
  induction h with
  | done hend => exact .done hend
  | @attempt w w' hlt _ ih =>
      refine .attempt hlt ?_
      rw [Sweep.attempt_rebase]
      exact ih

/-- The walk does not change the allocator. -/
theorem Clears.pmm_eq (h : Clears root stop w w') : w'.t.pmm = w.t.pmm := by
  induction h with
  | done => rfl
  | @attempt w w' hlt _ ih =>
      rw [ih]
      unfold Sweep.attempt
      split
      next => rfl
      next hentry => exact unmapEntry_pmm hentry

/-! ## Rounds without a word from the callback -/

/-- The walk at the beginning of a round. -/
def Unmapping.start (state : Unmapping σ) : Sweep where
  address := state.address
  res := .okay
  frames := []
  t := state.t

theorem release_append (frames frames' : List Nat) (pmm : Pmm) :
    release (frames ++ frames') pmm = release frames' (release frames pmm) := List.foldl_append ..

theorem mem_settle (countReferences : Bool) (w : Sweep) (cookie : σ) :
    (w.settle countReferences cookie).t.mem = w.t.mem := by
  unfold Sweep.settle
  split <;> rfl

theorem pmm_settle (countReferences : Bool) (w : Sweep) (cookie : σ) :
    (w.settle countReferences cookie).t.pmm =
      if countReferences then release w.frames w.t.pmm else w.t.pmm := by
  unfold Sweep.settle
  split <;> rfl

/-- The outcome of a walk whose rounds all went on, up to the order of the frames. -/
structure Completes (countReferences : Bool) (w : Sweep) (out : HandleResult × Unmapping σ) :
    Prop where
  result : out.1 = w.res
  mem : out.2.t.mem = w.t.mem
  counts : ∃ frames, frames.Perm w.frames ∧
    out.2.t.pmm = if countReferences then release frames w.t.pmm else w.t.pmm

/-- Rounds that are cut at a number of pages and keep their own result complete the walk. -/
theorem completes_rounds (hstop : stop + largePageSize ≤ 2 ^ 64) (lo : Nat) (hlimit : 0 < limit)
    (round : Unmapping σ → HandleResult × Unmapping σ)
    (hround : ∀ state : Unmapping σ, lo ≤ state.address → OnPage stop state.address →
      state.address < stop → ∃ n, pagesUpTo stop state.address ≤ n ∧
        round { state with cookie := cb.before state.address state.cookie } =
          (sweep root stop limit n state.start).bail countReferences cb state.address
            (cb.before state.address state.cookie))
    (n : Nat) (state : Unmapping σ) (hlo : lo ≤ state.address) (ha : OnPage stop state.address)
    (hlt : state.address < stop) (hn : pagesUpTo stop state.address ≤ n)
    (hclears : Clears root stop state.start w') :
    Completes countReferences w' (unmapRounds stop cb round n state) := by
  induction n generalizing state w' with
  | zero =>
      have := pagesUpTo_lt hlt (Nat.le_refl _)
      omega
  | succ n ih =>
      obtain ⟨m, hm, hbail⟩ := hround state hlo ha hlt
      have hrounded := rounded_sweep (w := state.start) hstop root limit hlimit ha hlt rfl hm
      rw [unmapRounds, hbail]
      generalize hw : sweep root stop limit m state.start = w at *
      have hlead : ∀ {w'}, Clears root stop w w' → Clears root stop state.start w' := by
        intro w' h
        exact clears_of_sweep (hw.symm ▸ h)
      generalize hcookie : (cb.after state.address (w.address - state.address) w.res
        (cb.before state.address state.cookie)).2 = cookie
      have hsettled : w.bail countReferences cb state.address
          (cb.before state.address state.cookie) = (w.res, w.settle countReferences cookie) := by
        rw [← hcookie]
        rfl
      rw [hsettled]
      by_cases hmore : w.address < stop
      · have hokay : w.res = .okay := hrounded.full hmore
        simp only [hokay, ne_eq, not_true_eq_false, if_false]
        rw [if_pos (show (w.settle countReferences cookie).address < stop from hmore)]
        -- the rest of the walk, on the allocator that this round leaves
        generalize hstate : w.settle countReferences cookie = state₂
        have haddr : state₂.address = w.address := by rw [← hstate]; rfl
        have hmem : state₂.t.mem = w.t.mem := by rw [← hstate, mem_settle]
        have hpmm := pmm_settle countReferences w cookie
        rw [hstate] at hpmm
        have hpage : OnPage stop state₂.address := by rw [haddr]; exact hrounded.page
        obtain ⟨w₂, hw₂⟩ := exists_clears hstop root state₂.start hpage
        have hbase : state₂.start.rebase w.frames w.t.pmm = w := by
          show Sweep.mk state₂.address .okay w.frames ⟨state₂.t.mem, w.t.pmm⟩ = w
          rw [haddr, hmem, ← hokay]
        have hrest := hw₂.rebase w.frames w.t.pmm
        rw [hbase] at hrest
        obtain rfl := hclears.unique (hlead hrest)
        have hprogress : state.address + pageSize ≤ w.address := hrounded.progress
        have hless := pagesUpTo_lt hlt hprogress
        have hout := ih state₂ (by omega) hpage (by omega) (by rw [haddr]; omega) hw₂
        obtain ⟨frames₂, hperm, hcounts⟩ := hout.counts
        refine ⟨hout.result, hout.mem, w.frames ++ frames₂, ?_, ?_⟩
        · exact (List.perm_append_comm).trans (hperm.append_right _)
        · rw [hcounts, hw₂.pmm_eq]
          show (if countReferences then release frames₂ state₂.t.pmm else state₂.t.pmm) =
            if countReferences then release (w.frames ++ frames₂) w.t.pmm else w.t.pmm
          rw [hpmm]
          split
          next => rw [release_append]
          next => rfl
      · obtain rfl := hclears.unique (hlead (.done hmore))
        have hout : Completes countReferences w' (w'.res, w'.settle countReferences cookie) :=
          ⟨rfl, mem_settle .., w'.frames, List.Perm.refl _, pmm_settle ..⟩
        show Completes countReferences w' (if w'.res ≠ .okay then _ else if w'.address < stop then
          _ else _)
        rw [if_neg hmore, ite_self]
        exact hout

/-! ## Callbacks -/

/-- What the callback can be told after a round. -/
structure Tellable (start size : Nat) (res : HandleResult) : Prop where
  start_aligned : start % pageSize = 0
  size_aligned : size % pageSize = 0
  size_pos : 0 < size
  legal : ¬IllegalRange start size
  bound : start + size + largePageSize ≤ 2 ^ 64
  result : res = .okay ∨ res = .pageUnmapped

/-- The callback hands back the result that it is told. -/
def Callbacks.Transparent (cb : Callbacks σ) : Prop :=
  ∀ start size res cookie, Tellable start size res →
    (cb.after start size res (cb.before start cookie)).1 = res

/-- The outcomes are the same, up to the order in which frames were freed. -/
structure Agree (out out' : HandleResult × Tables × σ) : Prop where
  result : out.1 = out'.1
  mem : out.2.1.mem = out'.2.1.mem
  counts : ∀ f c, out.2.1.pmm.Uses f c ↔ out'.2.1.pmm.Uses f c

theorem Agree.refl (out : HandleResult × Tables × σ) : Agree out out :=
  ⟨rfl, rfl, fun _ _ => Iff.rfl⟩

theorem Sweep.finish_eq_bail (start : Nat) (cookie : σ)
    (h : (cb.after start (w.address - start) w.res cookie).1 = w.res) :
    w.finish countReferences cb start cookie = w.bail countReferences cb start cookie := by
  unfold Sweep.finish Sweep.bail
  simp only [h]

/-- A round of a legal range is told as one. -/
theorem Rounded.tellable {vaddr size start : Nat} (h : Rounded (vaddr + size) start w)
    (hbound : vaddr + size + largePageSize ≤ 2 ^ 64) (hlegal : ¬IllegalRange vaddr size)
    (hlo : vaddr ≤ start) (ha : start % pageSize = 0) :
    Tellable start (w.address - start) w.res := by
  obtain ⟨⟨haligned, hreach⟩, hprogress, -, hres⟩ := h
  unfold pageSize at ha haligned hprogress
  unfold reach largePageSize at hreach
  unfold largePageSize at hbound
  refine ⟨ha, ?_, ?_, ?_, ?_, hres⟩
  · unfold pageSize
    omega
  · omega
  · unfold IllegalRange Word.add fractalEnd fractalStart lowerHalfEnd higherHalfStart
      alienFractalIndex at *
    omega
  · unfold largePageSize
    omega

section Legal

variable {vaddr size : Nat} (hbound : vaddr + size + largePageSize ≤ 2 ^ 64)
  (hlegal : ¬IllegalRange vaddr size) (hpos : 0 < size) (haligned : vaddr % pageSize = 0)

include hbound hpos haligned

theorem completes_recursive (cb : Callbacks σ) (cookie : σ)
    (hclears : Clears root (vaddr + size) ⟨vaddr, .okay, [], t⟩ w') :
    Completes countReferences w' (unmapFrom root (vaddr + size) countReferences cb false
      { address := vaddr, t, cookie }) := by
  refine completes_rounds hbound 0 Nat.one_pos _ (fun state _ ha hlt => ?_) _ _ (Nat.zero_le _)
    ⟨haligned, ?_⟩ ?_ (Nat.le_succ _) hclears
  · refine ⟨_, Nat.le_succ _, ?_⟩
    show unmapRecursively _ _ _ _ _ _ _ _ _ = _
    rw [unmapRecursively_eq _ _ _ _ _ _ _ _ hlt rfl]
    rfl
  · unfold reach largePageSize
    dsimp only
    omega
  · show vaddr < vaddr + size
    omega

include hlegal in
theorem completes_iterative (htransparent : cb.Transparent) (cookie : σ)
    (hclears : Clears root (vaddr + size) ⟨vaddr, .okay, [], t⟩ w') :
    Completes countReferences w' (unmapFrom root (vaddr + size) countReferences cb true
      { address := vaddr, t, cookie }) := by
  have hpos : 0 < unmapListMax := by decide
  refine completes_rounds hbound vaddr hpos _
    (fun state hlo ha hlt => ?_) _ _ (Nat.le_refl _) ⟨haligned, ?_⟩ ?_ (Nat.le_succ _) hclears
  · refine ⟨_, Nat.le_refl _, ?_⟩
    have hrounded := rounded_sweep (w := state.start) hbound root unmapListMax (by decide) ha hlt
      rfl (Nat.le_refl _)
    exact Sweep.finish_eq_bail _ _
      (htransparent _ _ _ _ (hrounded.tellable hbound hlegal hlo ha.aligned))
  · unfold reach largePageSize
    dsimp only
    omega
  · show vaddr < vaddr + size
    omega

end Legal

theorem Completes.agree {out out' : HandleResult × Unmapping σ} (h : Completes countReferences w out)
    (h' : Completes countReferences w out') (hsound : w.t.pmm.Sound) :
    Agree (out.1, out.2.t, out.2.cookie) (out'.1, out'.2.t, out'.2.cookie) := by
  refine ⟨h.result.trans h'.result.symm, h.mem.trans h'.mem.symm, fun f c => ?_⟩
  obtain ⟨frames, hperm, hpmm⟩ := h.counts
  obtain ⟨frames', hperm', hpmm'⟩ := h'.counts
  show out.2.t.pmm.Uses f c ↔ out'.2.t.pmm.Uses f c
  rw [hpmm, hpmm']
  split
  next => exact uses_release_perm hsound (hperm.trans hperm'.symm)
  next => rfl

/-- Without a word from the callback the strategies agree. -/
theorem Callbacks.Transparent.agree (h : cb.Transparent) (as : AddressSpaces)
    (hsound : t.pmm.Sound) {vaddr size : Nat} (hbound : vaddr + size + largePageSize ≤ 2 ^ 64)
    (pagingTable : Nat) (cookie : σ) :
    Agree (t.unmapRange as true pagingTable vaddr size countReferences cb cookie)
      (t.unmapRange as false pagingTable vaddr size countReferences cb cookie) := by
  unfold unmapRange
  split
  next => exact Agree.refl _
  next hlegal =>
    split
    next => exact Agree.refl _
    next hpos =>
      split
      next => exact Agree.refl _
      next haligned =>
        rw [not_or, not_not, not_not] at haligned
        have hvaddr : vaddr % pageSize = 0 := by simpa [is4KiBAligned] using haligned.1
        have hend : Word.add vaddr size = vaddr + size := Word.add_of_lt (by
          unfold largePageSize at hbound
          omega)
        have hpage : OnPage (vaddr + size) vaddr := ⟨hvaddr, by
          unfold reach largePageSize
          omega⟩
        rw [hend]
        obtain ⟨w', hclears⟩ := exists_clears hbound
          (as.root (Space.ofAddress pagingTable vaddr)) ⟨vaddr, .okay, [], t⟩ hpage
        exact (completes_iterative hbound hlegal (by omega) hvaddr h cookie hclears).agree
          (completes_recursive hbound (by omega) hvaddr cb cookie hclears)
          (hclears.pmm_eq ▸ hsound)

/-! ## A callback with a word -/

theorem Clears.ended (h : Clears root stop w w') : ¬w'.address < stop := by
  induction h with
  | done hend => exact hend
  | attempt _ _ ih => exact ih

theorem Clears.length_le (h : Clears root stop w w') : w.frames.length ≤ w'.frames.length := by
  induction h with
  | done => exact Nat.le_refl _
  | @attempt w w' _ _ ih =>
      refine Nat.le_trans ?_ ih
      unfold Sweep.attempt
      split
      next => exact Nat.le_refl _
      next => exact Nat.le_succ _

/-- A walk that meets few pages is one iterative round, and the callback has the last word. -/
theorem iterative_of_clears {vaddr size : Nat} (hbound : vaddr + size + largePageSize ≤ 2 ^ 64)
    (hpos : 0 < size) (haligned : vaddr % pageSize = 0) (cb : Callbacks σ) (cookie : σ)
    (hclears : Clears root (vaddr + size) ⟨vaddr, .okay, [], t⟩ w')
    (hfew : w'.frames.length < unmapListMax) :
    (unmapFrom root (vaddr + size) countReferences cb true { address := vaddr, t, cookie }).1 =
      (cb.after vaddr (w'.address - vaddr) w'.res (cb.before vaddr cookie)).1 := by
  have hpage : OnPage (vaddr + size) vaddr := ⟨haligned, by
    unfold reach largePageSize
    omega⟩
  have hexit : ¬((sweep root (vaddr + size) unmapListMax (pagesUpTo (vaddr + size) vaddr)
      ⟨vaddr, .okay, [], t⟩).address < vaddr + size ∧ (sweep root (vaddr + size) unmapListMax
      (pagesUpTo (vaddr + size) vaddr) ⟨vaddr, .okay, [], t⟩).frames.length < unmapListMax) :=
    sweep_exit (w := ⟨vaddr, .okay, [], t⟩) hbound root unmapListMax hpage (Nat.le_refl _)
  have hclears' : ∀ {w₁}, Clears root (vaddr + size) (sweep root (vaddr + size) unmapListMax
      (pagesUpTo (vaddr + size) vaddr) ⟨vaddr, .okay, [], t⟩) w₁ → w₁ = w' :=
    fun h => (clears_of_sweep h).unique hclears
  have hsweep : sweep root (vaddr + size) unmapListMax (pagesUpTo (vaddr + size) vaddr)
      ⟨vaddr, .okay, [], t⟩ = w' := by
    have hpage' : OnPage (vaddr + size) (sweep root (vaddr + size) unmapListMax
        (pagesUpTo (vaddr + size) vaddr) ⟨vaddr, .okay, [], t⟩).address :=
      sweep_induct (P := fun w => OnPage (vaddr + size) w.address) _ _ _ _ _ hpage
        fun w hlt _ hpage => (w.attempt_spec hbound root hpage hlt).2
    obtain ⟨w₁, hw₁⟩ := exists_clears hbound root _ hpage'
    have hlength := hw₁.length_le
    rw [hclears' hw₁] at hlength
    exact hclears' (.done fun hlt => hexit ⟨hlt, by omega⟩)
  have hend : ¬w'.address < vaddr + size := hclears.ended
  have hround : unmapIteratively root (vaddr + size) countReferences cb
      { address := vaddr, t, cookie := cb.before vaddr cookie } =
      w'.finish countReferences cb vaddr (cb.before vaddr cookie) := by
    unfold unmapIteratively
    simp only [hsweep]
  unfold unmapFrom
  rw [unmapRounds]
  simp only [if_true, hround, Sweep.finish]
  have hend' : ¬(w'.settle countReferences (cb.after vaddr (w'.address - vaddr) w'.res
    (cb.before vaddr cookie)).2 : Unmapping σ).address < vaddr + size := hend
  rw [if_neg hend', ite_self]

/-- Pages that are not mapped are skipped. -/
theorem clears_skip (n : Nat) (hnone : ∀ k < n, t.unmapEntry root (a + k * pageSize) = none)
    (hle : a + n * pageSize ≤ stop) {res : HandleResult}
    (h : Clears root stop ⟨a + n * pageSize, if n = 0 then res else .pageUnmapped, frames, t⟩ w') :
    Clears root stop ⟨a, res, frames, t⟩ w' := by
  induction n generalizing a res with
  | zero =>
      rw [Nat.zero_mul, Nat.add_zero] at h
      exact h
  | succ n ih =>
      have hshift : ∀ k, a + pageSize + k * pageSize = a + (k + 1) * pageSize := by
        intro k
        rw [Nat.succ_mul]
        omega
      have hattempt : (Sweep.mk a res frames t).attempt root =
          ⟨a + pageSize, .pageUnmapped, frames, t⟩ := by
        have hfirst := hnone 0 (Nat.succ_pos n)
        rw [Nat.zero_mul, Nat.add_zero] at hfirst
        unfold Sweep.attempt
        rw [hfirst]
      refine .attempt ?_ ?_
      · show a < stop
        have hpage : 0 < pageSize := by decide
        rw [← hshift] at hle
        omega
      · rw [hattempt]
        refine ih (fun k hk => ?_) ?_ ?_
        · rw [hshift]
          exact hnone (k + 1) (by omega)
        · rw [hshift]
          exact hle
        · rw [hshift]
          rw [if_neg (Nat.succ_ne_zero n)] at h
          rw [ite_self]
          exact h

/-- Tables with a single small page, below a topmost table that can be anywhere. -/
def lonePage (root v : Nat) : Tables where
  mem f i :=
    let pml3 := if root < 0x4000 then 0x4000 else 0x1000
    if f = root ∧ i = getPml4Index v then PmlEntry.table pml3
    else if f = pml3 ∧ i = getPml3Index v then PmlEntry.table (pml3 + 0x1000)
    else if f = pml3 + 0x1000 ∧ i = getPml2Index v then PmlEntry.table (pml3 + 0x2000)
    else if f = pml3 + 0x2000 ∧ i = getPml1Index v then page false 0x8000 MemoryFlags.writable false
    else 0
  pmm := { spaces := [] }

theorem unmapEntry_lonePage (root v v' : Nat) :
    (∃ t, (lonePage root v).unmapEntry root v' = some ((0x8000, ._4KiB), t) ∧
      getPml4Index v' = getPml4Index v ∧ getPml3Index v' = getPml3Index v ∧
      getPml2Index v' = getPml2Index v ∧ getPml1Index v' = getPml1Index v) ∨
    ((lonePage root v).unmapEntry root v' = none ∧
      ¬(getPml4Index v' = getPml4Index v ∧ getPml3Index v' = getPml3Index v ∧
        getPml2Index v' = getPml2Index v ∧ getPml1Index v' = getPml1Index v)) := by
  obtain ⟨pml3, hpml3, hroot, hlow, hhigh⟩ : ∃ pml3,
      (if root < 0x4000 then 0x4000 else 0x1000) = pml3 ∧
      (root ≠ pml3 ∧ root ≠ pml3 + 0x1000 ∧ root ≠ pml3 + 0x2000) ∧ pml3 % 4096 = 0 ∧
      pml3 ≤ 0x4000 := by
    refine ⟨_, rfl, ?_, ?_, ?_⟩ <;> split <;> omega
  have hframe : IsFrame pml3 ∧ IsFrame (pml3 + 0x1000) ∧ IsFrame (pml3 + 0x2000) := by
    unfold IsFrame pageSize
    omega
  have hmem : ∀ f i, (lonePage root v).mem f i =
      if f = root ∧ i = getPml4Index v then PmlEntry.table pml3
      else if f = pml3 ∧ i = getPml3Index v then PmlEntry.table (pml3 + 0x1000)
      else if f = pml3 + 0x1000 ∧ i = getPml2Index v then PmlEntry.table (pml3 + 0x2000)
      else if f = pml3 + 0x2000 ∧ i = getPml1Index v then
        page false 0x8000 MemoryFlags.writable false
      else 0 := by
    intro f i
    show (if f = root ∧ _ then _ else _) = _
    simp only [hpml3]
  have h4 : (lonePage root v).mem root (getPml4Index v') =
      if getPml4Index v' = getPml4Index v then PmlEntry.table pml3 else 0 := by
    rw [hmem]
    simp [hroot]
  have h3 : (lonePage root v).mem pml3 (getPml3Index v') =
      if getPml3Index v' = getPml3Index v then PmlEntry.table (pml3 + 0x1000) else 0 := by
    rw [hmem]
    simp [hroot.1.symm]
  have h2 : (lonePage root v).mem (pml3 + 0x1000) (getPml2Index v') =
      if getPml2Index v' = getPml2Index v then PmlEntry.table (pml3 + 0x2000) else 0 := by
    rw [hmem]
    simp [hroot.2.1.symm]
  have h1 : (lonePage root v).mem (pml3 + 0x2000) (getPml1Index v') =
      if getPml1Index v' = getPml1Index v then page false 0x8000 MemoryFlags.writable false
      else 0 := by
    rw [hmem]
    simp [hroot.2.2.symm]
  have hzero : getPresent 0 = false := rfl
  unfold unmapEntry pml1p pml2p pml3p
  simp only
  rw [h4]
  by_cases hi4 : getPml4Index v' = getPml4Index v
  · rw [if_pos hi4, getPresent_table, getAddress_table hframe.1, h3]
    by_cases hi3 : getPml3Index v' = getPml3Index v
    · rw [if_pos hi3, getPresent_table, getAddress_table hframe.2.1, h2]
      by_cases hi2 : getPml2Index v' = getPml2Index v
      · rw [if_pos hi2, getPresent_table, getPageSize_table,
          getAddress_table hframe.2.2, h1]
        by_cases hi1 : getPml1Index v' = getPml1Index v
        · rw [if_pos hi1, getPresent_page,
            getAddress_page _ _ _ ⟨rfl, by decide⟩]
          exact Or.inl ⟨_, rfl, hi4, hi3, hi2, hi1⟩
        · rw [if_neg hi1]
          exact Or.inr ⟨rfl, fun h => hi1 h.2.2.2⟩
      · rw [if_neg hi2]
        exact Or.inr ⟨rfl, fun h => hi2 h.2.2.1⟩
    · rw [if_neg hi3]
      exact Or.inr ⟨rfl, fun h => hi3 h.2.1⟩
  · rw [if_neg hi4]
    exact Or.inr ⟨rfl, fun h => hi4 h.1⟩

/-- Any round that the callback can be told about comes to pass. -/
theorem exists_round (root pagingTable : Nat) {start size : Nat} {res : HandleResult}
    (h : Tellable start size res) :
    ∃ t w', t.pmm = { spaces := [] } ∧ Clears root (start + size) ⟨start, .okay, [], t⟩ w' ∧
      w'.address = start + size ∧ w'.res = res ∧ w'.frames.length < unmapListMax := by
  obtain ⟨haligned, hsize, hpos, hlegal, hbound, hres⟩ := h
  unfold pageSize at haligned hsize
  obtain ⟨n, rfl⟩ : ∃ n, size = n * pageSize := ⟨size / 4096, by
    unfold pageSize
    omega⟩
  obtain ⟨n, rfl⟩ : ∃ m, n = m + 1 := Nat.exists_eq_succ_of_ne_zero (by
    rintro rfl
    omega)
  rcases hres with rfl | rfl
  · -- only the last page is there
    have hcovers : ∀ k ≤ n, (Space.ofAddress pagingTable start).Covers (start + k * pageSize) := by
      intro k hk
      unfold Space.ofAddress
      unfold IllegalRange Word.add fractalEnd fractalStart lowerHalfEnd higherHalfStart
        alienFractalIndex at hlegal
      unfold pageSize largePageSize at *
      split
      next hlow =>
        show _ < lowerHalfEnd
        unfold lowerHalfEnd at hlow ⊢
        omega
      next hlow =>
        show higherHalfStart ≤ _ ∧ _ ∧ ¬(fractalStart ≤ _ ∧ _ < fractalEnd)
        unfold lowerHalfEnd at hlow
        unfold fractalEnd fractalStart higherHalfStart alienFractalIndex
        omega
    have hlast : start + n * pageSize < start + (n + 1) * pageSize := by
      unfold pageSize
      omega
    obtain ⟨t', hentry, -⟩ | ⟨-, hne⟩ := unmapEntry_lonePage root (start + n * pageSize)
      (start + n * pageSize)
    · refine ⟨lonePage root (start + n * pageSize),
        ⟨start + (n + 1) * pageSize, .okay, [0x8000], t'⟩, rfl, ?_, rfl, rfl,
        show 1 < unmapListMax by decide⟩
      refine clears_skip n (fun k hk => ?_) hlast.le (.attempt hlast ?_)
      · obtain ⟨-, -, h4, h3, h2, h1⟩ | ⟨hnone, -⟩ :=
          unmapEntry_lonePage root (start + n * pageSize) (start + k * pageSize)
        · have hpage := smallPage_eq (hcovers n (Nat.le_refl _)) (hcovers k hk.le) h4 h3 h2 h1
          unfold pageSize at hpage
          omega
        · exact hnone
      · unfold Sweep.attempt
        simp only [hentry, nextAddress_small]
        have hnext : start + n * pageSize + pageSize = start + (n + 1) * pageSize := by
          rw [Nat.succ_mul]
          omega
        rw [hnext]
        exact .done (Nat.lt_irrefl _)
    · exact absurd ⟨rfl, rfl, rfl, rfl⟩ hne
  · refine ⟨⟨fun _ _ => 0, ⟨[]⟩⟩,
      ⟨start + (n + 1) * pageSize, .pageUnmapped, [], ⟨fun _ _ => 0, ⟨[]⟩⟩⟩, rfl, ?_, rfl,
      rfl, show 0 < unmapListMax by decide⟩
    refine clears_skip (n + 1) (fun k _ => rfl) (Nat.le_refl _) ?_
    rw [if_neg (Nat.succ_ne_zero n)]
    exact .done (Nat.lt_irrefl _)

theorem unmapRange_of_legal (as : AddressSpaces) (cpuDataSetUp : Bool) (pagingTable : Nat)
    {start size : Nat} {res : HandleResult} (h : Tellable start size res) (cb : Callbacks σ)
    (cookie : σ) (t : Tables) :
    (t.unmapRange as cpuDataSetUp pagingTable start size countReferences cb cookie).1 =
      (unmapFrom (as.root (Space.ofAddress pagingTable start)) (start + size) countReferences cb
        cpuDataSetUp { address := start, t, cookie }).1 := by
  have hbound := h.bound
  have hpos := h.size_pos
  unfold largePageSize at hbound
  have haligned : ¬(¬is4KiBAligned start ∨ ¬is4KiBAligned size) := by
    simp [is4KiBAligned, h.start_aligned, h.size_aligned]
  rw [unmapRange, if_neg h.legal, if_neg (by omega), if_neg haligned, Word.add_of_lt (by omega)]

/-- A callback that is content with pages that were not there, as the one of `FreePages`. -/
def contented : Callbacks Unit where
  pre := none
  post := some fun _ _ _ cookie => (.okay, cookie)

end Tables

end Beelzebub.Memory
