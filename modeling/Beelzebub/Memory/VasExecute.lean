import Beelzebub.Memory.VasPass

/-!
# Execution of an operation

The pass of `execute` as a whole (`executeAccepted_passed`), and what happens to it
when a node cannot be allocated.  `RegionExecutes` is the abstract run of an
operation over the regions in its range; `execute` refines it and never runs out of
fuel (`execute_refines`).
-/

namespace Beelzebub.Memory

open Utils Tiling
open MemoryAllocationOptions (permanent guardLow guardHigh guardFull)

namespace Vas

/-! ## One pass -/

/-- The pass over `p` merges it with both neighbours, and the right one is `q`. -/
def Swallows (vas : Vas) (op : Operation) (v e : Nat) (p q : Ptr) : Prop :=
  op.MeetsLeft v (vas.region p) ∧ op.MeetsRight e (vas.region p) ∧
    (∃ a ∈ vas.prev p, op.LeftMergeable (vas.region a)) ∧
    vas.next p = some q ∧ op.RightMergeable (vas.region q)

/-- Everything a pass that succeeds does. -/
structure Passed (op : Operation) (v e : Nat) (p : Ptr) (vas vas' : Vas) : Prop where
  threaded : vas'.Threaded
  step : RegionStep op v e (vas.region p) vas.regions vas'.regions
  lastSearched : vas'.lastSearched = vas.lastSearched
  kept : ∀ q ∈ vas.tree.inorder, q ≠ p → ¬vas.Swallows op v e p q →
    q ∈ vas'.tree.inorder ∧ (vas'.region q).attributes = (vas.region q).attributes

/-- The nodes that the pass over `p` needs can be allocated: one for a region split
off at an end, two for a region in the middle. -/
structure NodesAvailable (alloc : NodeAllocator) (vas : Vas) (op : Operation) (v e : Nat)
    (p : Ptr) : Prop where
  start : op.MeetsLeft v (vas.region p) → ¬op.MeetsRight e (vas.region p) →
    (∀ a ∈ vas.prev p, ¬op.LeftMergeable (vas.region a)) →
    ∃ n, alloc.allocateNode vas.tree.inorder = .ok n
  stop : ¬op.MeetsLeft v (vas.region p) → op.MeetsRight e (vas.region p) →
    (∀ b ∈ vas.next p, ¬op.RightMergeable (vas.region b)) →
    ∃ n, alloc.allocateNode vas.tree.inorder = .ok n
  middle : ¬op.MeetsLeft v (vas.region p) → ¬op.MeetsRight e (vas.region p) →
    ∀ A B, vas.tree.inorder = A ++ p :: B →
    ∃ m n, alloc.allocateNode vas.tree.inorder = .ok m ∧
      alloc.allocateNode (A ++ p :: m :: B) = .ok n

theorem NodesAvailable.of_succeeds {alloc : NodeAllocator} (h : alloc.Succeeds)
    (vas : Vas) (op : Operation) (v e : Nat) (p : Ptr) : vas.NodesAvailable alloc op v e p where
  start _ _ _ := h _
  stop _ _ _ := h _
  middle _ _ A B _ := by
    obtain ⟨m, hm⟩ := h vas.tree.inorder
    obtain ⟨n, hn⟩ := h (A ++ p :: m :: B)
    exact ⟨m, n, hm, hn⟩

theorem Spliced.kept {vas vas' : Vas} {A ys B : List Ptr} (h : vas.Spliced vas' A ys B) {q : Ptr}
    (hq : q ∈ A ++ B) :
    q ∈ vas'.tree.inorder ∧ (vas'.region q).attributes = (vas.region q).attributes := by
  refine ⟨?_, by rw [h.frame q hq]⟩
  rw [h.inorder]
  simp only [List.mem_append] at hq ⊢
  tauto

section Accepted

variable {vas : Vas} {lo hi e : Nat} {A B : List Ptr} {p a b n : Ptr} {op : OperationParameters}
  {alloc : NodeAllocator}

theorem check_eq (vas : Vas) (op : OperationParameters) (p : Ptr) :
    vas.check op p = op.operation.check op.address op.size ((vas.prev p).map vas.region)
      (vas.region p) ((vas.next p).map vas.region) := rfl

theorem check_leftMergeable_eq_true (f : vas.Focus lo hi (A ++ [a]) p B)
    (hacc : op.operation.Accepts (vas.region p))
    (hl : (vas.check op p).meetsLeft = true) (ha : op.operation.LeftMergeable (vas.region a)) :
    (vas.check op p).leftMergeable = true := by
  have hprev : vas.prev p = some a := f.prev_eq.trans (by simp)
  rw [check_eq] at hl ⊢
  rw [Operation.check_leftMergeable hacc, hl, hprev]
  simpa using ha

theorem check_leftMergeable_eq_false (hacc : op.operation.Accepts (vas.region p))
    (ha : ∀ a ∈ vas.prev p, ¬op.operation.LeftMergeable (vas.region a)) :
    (vas.check op p).leftMergeable = false := by
  rw [check_eq, Operation.check_leftMergeable hacc]
  cases hprev : vas.prev p with
  | none => simp
  | some a => simp [ha a hprev]

theorem check_rightMergeable_eq_true (f : vas.Focus lo hi A p (b :: B))
    (hacc : op.operation.Accepts (vas.region p))
    (hr : (vas.check op p).meetsRight = true) (hb : op.operation.RightMergeable (vas.region b)) :
    (vas.check op p).rightMergeable = true := by
  have hnext : vas.next p = some b := f.next_eq
  rw [check_eq] at hr ⊢
  rw [Operation.check_rightMergeable hacc, hr, hnext]
  simpa using hb

theorem check_rightMergeable_eq_false (hacc : op.operation.Accepts (vas.region p))
    (hb : ∀ b ∈ vas.next p, ¬op.operation.RightMergeable (vas.region b)) :
    (vas.check op p).rightMergeable = false := by
  rw [check_eq, Operation.check_rightMergeable hacc]
  cases hnext : vas.next p with
  | none => simp
  | some b => simp [hb b hnext]

/-- Either the left neighbour can be extended or there is none like that. -/
theorem left_cases (f : vas.Focus lo hi A p B) (o : Operation) :
    (∃ A' a, A = A' ++ [a] ∧ o.LeftMergeable (vas.region a)) ∨
      (∀ a ∈ vas.prev p, ¬o.LeftMergeable (vas.region a)) ∧
        ∀ r ∈ (A.map vas.region).getLast?, ¬o.LeftMergeable r := by
  have hprev : vas.prev p = A.getLast? := f.prev_eq
  rw [hprev, List.getLast?_map]
  cases hA : A.getLast? with
  | none => exact Or.inr ⟨by simp, by simp⟩
  | some a =>
      obtain ⟨A', rfl⟩ := List.getLast?_eq_some_iff.mp hA
      by_cases ha : o.LeftMergeable (vas.region a)
      · exact Or.inl ⟨A', a, rfl, ha⟩
      · exact Or.inr ⟨by simpa using ha, by simpa using ha⟩

theorem right_cases (f : vas.Focus lo hi A p B) (o : Operation) :
    (∃ b B', B = b :: B' ∧ o.RightMergeable (vas.region b)) ∨
      (∀ b ∈ vas.next p, ¬o.RightMergeable (vas.region b)) ∧
        ∀ r ∈ (B.map vas.region).head?, ¬o.RightMergeable r := by
  have hnext : vas.next p = B.head? := f.next_eq
  rw [hnext, List.head?_map]
  cases B with
  | nil => exact Or.inr ⟨by simp, by simp⟩
  | cons b B' =>
      by_cases hb : o.RightMergeable (vas.region b)
      · exact Or.inl ⟨b, B', rfl, hb⟩
      · exact Or.inr ⟨by simpa using hb, by simpa using hb⟩

/-- A pass over an entire descriptor. -/
theorem executeWhole_passed (f : vas.Focus lo hi A p B) (hhi : hi < 2 ^ 64)
    (hh : op.operation.Hits op.address e (vas.region p))
    (hl : op.operation.MeetsLeft op.address (vas.region p))
    (hr : op.operation.MeetsRight e (vas.region p))
    (hl' : (vas.check op p).meetsLeft = true) (hr' : (vas.check op p).meetsRight = true) :
    ∃ vas', vas.executeWhole op p (vas.check op p) = (.okay, vas') ∧
      Passed op.operation op.address e p vas vas' := by
  rcases left_cases f op.operation with ⟨A, a, rfl, ha⟩ | ⟨hA, hA'⟩
  · have hlm := check_leftMergeable_eq_true f hh.accepts hl' ha
    rcases right_cases f op.operation with ⟨b, B, rfl, hb⟩ | ⟨hB, hB'⟩
    · have hrm := check_rightMergeable_eq_true f hh.accepts hr' hb
      obtain ⟨vas', h1, hs, hreg⟩ := executeWhole_mergeBoth f hhi ⟨hh.lower, hh.upper⟩ hlm hrm
      refine ⟨vas', h1, hs.threaded, ?_, hs.lastSearched, fun q hq hqp hsw => ?_⟩
      · rw [f.regions, hs.regions]
        simpa [hreg] using RegionStep.mergeBoth (A := A.map vas.region) (B := B.map vas.region)
          hh hl hr ha hb
      · rw [f.inorder] at hq
        simp only [List.mem_append, List.mem_cons, List.not_mem_nil, or_false] at hq
        rcases hq with (hq | rfl) | rfl | rfl | hq
        · exact hs.kept (by simp [hq])
        · exact ⟨by rw [hs.inorder]; simp, by rw [hreg]; rfl⟩
        · exact absurd rfl hqp
        · refine absurd ⟨hl, hr, ⟨a, ?_, ha⟩, f.next_eq, hb⟩ hsw
          exact f.prev_eq.trans (by simp)
        · exact hs.kept (by simp [hq])
    · have hrm := check_rightMergeable_eq_false hh.accepts hB
      obtain ⟨vas', h1, hs, hreg⟩ := executeWhole_mergeLeft f ⟨hh.lower, hh.upper⟩ hlm hrm
      refine ⟨vas', h1, hs.threaded, ?_, hs.lastSearched, fun q hq hqp _ => ?_⟩
      · rw [f.regions, hs.regions]
        simpa [hreg] using RegionStep.mergeLeft (A := A.map vas.region) hh hl hr ha hB'
      · rw [f.inorder] at hq
        simp only [List.mem_append, List.mem_cons, List.not_mem_nil, or_false] at hq
        rcases hq with (hq | rfl) | rfl | hq
        · exact hs.kept (by simp [hq])
        · exact ⟨by rw [hs.inorder]; simp, by rw [hreg]; rfl⟩
        · exact absurd rfl hqp
        · exact hs.kept (by simp [hq])
  · have hlm := check_leftMergeable_eq_false hh.accepts hA
    rcases right_cases f op.operation with ⟨b, B, rfl, hb⟩ | ⟨hB, hB'⟩
    · have hrm := check_rightMergeable_eq_true f hh.accepts hr' hb
      obtain ⟨vas', h1, hs, hreg⟩ := executeWhole_mergeRight f ⟨hh.lower, hh.upper⟩ hlm hrm
      refine ⟨vas', h1, hs.threaded, ?_, hs.lastSearched, fun q hq hqp _ => ?_⟩
      · rw [f.regions, hs.regions]
        simpa [hreg] using RegionStep.mergeRight (B := B.map vas.region) hh hl hr hA' hb
      · rw [f.inorder] at hq
        simp only [List.mem_append, List.mem_cons] at hq
        rcases hq with hq | rfl | rfl | hq
        · exact hs.kept (by simp [hq])
        · exact absurd rfl hqp
        · exact ⟨by rw [hs.inorder]; simp, by rw [hreg]; rfl⟩
        · exact hs.kept (by simp [hq])
    · have hrm := check_rightMergeable_eq_false hh.accepts hB
      obtain ⟨vas', h1, hs, hreg⟩ := executeWhole_repurpose op f hlm hrm
      refine ⟨vas', h1, hs.threaded, ?_, hs.lastSearched, fun q hq hqp _ => ?_⟩
      · rw [f.regions, hs.regions]
        simpa [hreg] using RegionStep.repurpose hh hl hr hA' hB'
      · rw [f.inorder] at hq
        simp only [List.mem_append, List.mem_cons] at hq
        rcases hq with hq | rfl | hq
        · exact hs.kept (by simp [hq])
        · exact absurd rfl hqp
        · exact hs.kept (by simp [hq])

/-- A pass over the beginning of a descriptor. -/
theorem executeStart_passed (f : vas.Focus lo hi A p B)
    (hh : op.operation.Hits op.address e (vas.region p))
    (hl : op.operation.MeetsLeft op.address (vas.region p))
    (hr : ¬op.operation.MeetsRight e (vas.region p)) (he : Word.add op.address op.size = e)
    (hve : op.address ≤ e) (hl' : (vas.check op p).meetsLeft = true)
    (hn : vas.NodesAvailable alloc op.operation op.address e p) :
    ∃ vas', vas.executeStart alloc op p (vas.check op p) = (.okay, vas') ∧
      Passed op.operation op.address e p vas vas' := by
  have hlt := hh.lt_stop hr
  rcases left_cases f op.operation with ⟨A, a, rfl, ha⟩ | ⟨hA, hA'⟩
  · have hlm := check_leftMergeable_eq_true f hh.accepts hl' ha
    obtain ⟨vas', h1, hs, hrega, hregp⟩ := executeStart_merge alloc f he hlm
    refine ⟨vas', h1, hs.threaded, ?_, hs.lastSearched, fun q hq hqp _ => ?_⟩
    · rw [f.regions, hs.regions]
      simpa [hrega, hregp] using RegionStep.startMerge (A := A.map vas.region)
        (B := B.map vas.region) hh hl hr ha
    · rw [f.inorder] at hq
      simp only [List.mem_append, List.mem_cons, List.not_mem_nil, or_false] at hq
      rcases hq with (hq | rfl) | rfl | hq
      · exact hs.kept (by simp [hq])
      · exact ⟨by rw [hs.inorder]; simp, by rw [hrega]; rfl⟩
      · exact absurd rfl hqp
      · exact hs.kept (by simp [hq])
  · have hlm := check_leftMergeable_eq_false hh.accepts hA
    obtain ⟨n, hn⟩ := hn.start hl hr hA
    have hlow := hh.lower
    obtain ⟨vas', h1, hs, hregn, hregp⟩ := executeStart_spawn f he (by omega) hlt hlm hn
    refine ⟨vas', h1, hs.threaded, ?_, hs.lastSearched, fun q hq hqp _ => ?_⟩
    · rw [f.regions, hs.regions]
      simpa [hregn, hregp] using RegionStep.startSpawn (B := B.map vas.region) hh hl hr hA'
    · rw [f.inorder] at hq
      simp only [List.mem_append, List.mem_cons] at hq
      rcases hq with hq | rfl | hq
      · exact hs.kept (by simp [hq])
      · exact absurd rfl hqp
      · exact hs.kept (by simp [hq])

/-- A pass over the end of a descriptor. -/
theorem executeEnd_passed (f : vas.Focus lo hi A p B)
    (hh : op.operation.Hits op.address e (vas.region p))
    (hl : ¬op.operation.MeetsLeft op.address (vas.region p))
    (hr : op.operation.MeetsRight e (vas.region p)) (hr' : (vas.check op p).meetsRight = true)
    (hn : vas.NodesAvailable alloc op.operation op.address e p) :
    ∃ vas', vas.executeEnd alloc op p (vas.check op p) = (.okay, vas') ∧
      Passed op.operation op.address e p vas vas' := by
  have hlt := hh.start_lt hl
  rcases right_cases f op.operation with ⟨b, B, rfl, hb⟩ | ⟨hB, hB'⟩
  · have hrm := check_rightMergeable_eq_true f hh.accepts hr' hb
    obtain ⟨vas', h1, hs, hregp, hregb⟩ := executeEnd_merge alloc f hrm
    refine ⟨vas', h1, hs.threaded, ?_, hs.lastSearched, fun q hq hqp _ => ?_⟩
    · rw [f.regions, hs.regions]
      simpa [hregp, hregb] using RegionStep.endMerge (A := A.map vas.region)
        (B := B.map vas.region) hh hl hr hb
    · rw [f.inorder] at hq
      simp only [List.mem_append, List.mem_cons] at hq
      rcases hq with hq | rfl | rfl | hq
      · exact hs.kept (by simp [hq])
      · exact absurd rfl hqp
      · exact ⟨by rw [hs.inorder]; simp, by rw [hregb]; rfl⟩
      · exact hs.kept (by simp [hq])
  · have hrm := check_rightMergeable_eq_false hh.accepts hB
    obtain ⟨n, hn⟩ := hn.stop hl hr hB
    obtain ⟨vas', h1, hs, hregp, hregn⟩ := executeEnd_spawn f hlt hh.upper hrm hn
    refine ⟨vas', h1, hs.threaded, ?_, hs.lastSearched, fun q hq hqp _ => ?_⟩
    · rw [f.regions, hs.regions]
      simpa [hregn, hregp] using RegionStep.endSpawn (A := A.map vas.region) hh hl hr hB'
    · rw [f.inorder] at hq
      simp only [List.mem_append, List.mem_cons] at hq
      rcases hq with hq | rfl | hq
      · exact hs.kept (by simp [hq])
      · exact absurd rfl hqp
      · exact hs.kept (by simp [hq])

/-- A pass within a descriptor. -/
theorem executeMiddle_passed (f : vas.Focus lo hi A p B)
    (hh : op.operation.Hits op.address e (vas.region p))
    (hl : ¬op.operation.MeetsLeft op.address (vas.region p))
    (hr : ¬op.operation.MeetsRight e (vas.region p)) (he : Word.add op.address op.size = e)
    (hve : op.address ≤ e) (hn : vas.NodesAvailable alloc op.operation op.address e p) :
    ∃ vas', vas.executeMiddle alloc op p = (.okay, vas') ∧
      Passed op.operation op.address e p vas vas' := by
  obtain ⟨m, n, hm, hn⟩ := hn.middle hl hr A B f.inorder
  obtain ⟨vas', h1, hs, hregp, hregm, hregn⟩ := executeMiddle_ok f he (hh.start_lt hl) hve
    (hh.lt_stop hr) hm hn
  refine ⟨vas', h1, hs.threaded, ?_, hs.lastSearched, fun q hq hqp _ => ?_⟩
  · rw [f.regions, hs.regions]
    simpa [hregp, hregm, hregn] using RegionStep.middle (A := A.map vas.region)
      (B := B.map vas.region) hh hl hr
  · rw [f.inorder] at hq
    simp only [List.mem_append, List.mem_cons] at hq
    rcases hq with hq | rfl | hq
    · exact hs.kept (by simp [hq])
    · exact absurd rfl hqp
    · exact hs.kept (by simp [hq])

/-- A pass that gets its nodes does what `RegionStep` says. -/
theorem executeAccepted_passed (f : vas.Focus lo hi A p B) (hhi : hi < 2 ^ 64)
    (hh : op.operation.Hits op.address e (vas.region p)) (he : op.address + op.size = e)
    (he64 : e < 2 ^ 64) (hve : op.address ≤ e)
    (hn : vas.NodesAvailable alloc op.operation op.address e p) :
    ∃ vas', vas.executeAccepted alloc op p (vas.check op p) = (.okay, vas') ∧
      Passed op.operation op.address e p vas vas' := by
  have hstop : (vas.region p).stop < 2 ^ 64 := Nat.lt_of_le_of_lt f.split.2.2.le hhi
  have hl' : (vas.check op p).meetsLeft = _ :=
    Operation.check_meetsLeft hh.accepts hh.lower (by omega)
  have hr' : (vas.check op p).meetsRight = _ :=
    Operation.check_meetsRight hh.accepts he he64 hstop
  have he' : Word.add op.address op.size = e := by rw [Word.add_of_lt (by omega), he]
  have hmov : has (vas.mem p).type permanent = false := hh.movable
  unfold executeAccepted
  rw [hmov, if_neg (by simp)]
  by_cases hl : op.operation.MeetsLeft op.address (vas.region p)
  · have hl' := hl'.trans (decide_eq_true hl)
    rw [if_pos hl']
    by_cases hr : op.operation.MeetsRight e (vas.region p)
    · have hr' := hr'.trans (decide_eq_true hr)
      rw [if_pos hr']
      exact executeWhole_passed f hhi hh hl hr hl' hr'
    · rw [if_neg (by rw [hr'.trans (decide_eq_false hr)]; simp)]
      exact executeStart_passed f hh hl hr he' hve hl' hn
  · rw [if_neg (by rw [hl'.trans (decide_eq_false hl)]; simp)]
    by_cases hr : op.operation.MeetsRight e (vas.region p)
    · have hr' := hr'.trans (decide_eq_true hr)
      rw [if_pos hr']
      exact executeEnd_passed f hh hl hr hr' hn
    · rw [if_neg (by rw [hr'.trans (decide_eq_false hr)]; simp)]
      exact executeMiddle_passed f hh hl hr he' hve hn

theorem regions_cutStart_ne (f : vas.Focus lo hi A p B) (hs : (vas.region p).start < e) :
    (vas.cutStart p e).regions ≠ vas.regions := by
  intro h
  have hmem : p ∈ vas.tree.inorder := by rw [f.inorder]; simp
  have hp := List.map_inj_left.mp h p hmem
  rw [region_cutStart] at hp
  have := congrArg Region.start hp
  simp only [Region.start_clear, Region.start_setStart] at this
  omega

theorem regions_cutEnd_ne {v : Nat} (f : vas.Focus lo hi A p B) (hv : v < (vas.region p).stop) :
    (vas.cutEnd p v).regions ≠ vas.regions := by
  intro h
  have hmem : p ∈ vas.tree.inorder := by rw [f.inorder]; simp
  have hp := List.map_inj_left.mp h p hmem
  rw [region_cutEnd] at hp
  have := congrArg Region.stop hp
  simp only [Region.stop_clear, Region.stop_setStop] at this
  omega

theorem regions_spawnMiddle_ne {m : Ptr} {t : AvlTree Ptr} (f : vas.Focus lo hi A p B)
    (ht : t.inorder = (A ++ [p]) ++ m :: B) :
    (vas.spawnMiddle op p m e t).regions ≠ vas.regions := by
  intro h
  have hlen := congrArg List.length h
  simp [regions, f.inorder, spawnMiddle, ht] at hlen

theorem error_of_not_ok (alloc : NodeAllocator) (live : List Ptr)
    (h : ¬∃ n, alloc.allocateNode live = .ok n) :
    ∃ res, alloc.allocateNode live = .error res ∧ res ≠ .okay := by
  cases hn : alloc.allocateNode live with
  | ok n => exact absurd ⟨n, hn⟩ h
  | error res => exact ⟨res, rfl, alloc.error_ne_okay _ _ hn⟩

/-- What is left of the descriptor `p` between `A` and `B` after a pass that did not get its
nodes: it is cut, and the part that is cut off is in no descriptor. -/
inductive Cut (vas : Vas) (op : OperationParameters) (e : Nat) (A : List Ptr) (p : Ptr)
    (B : List Ptr) : Vas → Prop
  | start : Cut vas op e A p B (vas.cutStart p e)
  | stop : (vas.region p).start < op.address → Cut vas op e A p B (vas.cutEnd p op.address)
  | middle {m : Ptr} {t : AvlTree Ptr} : (vas.region p).start < op.address →
      e < (vas.region p).stop → t.inorder = (A ++ [p]) ++ m :: B → m ∉ A ++ p :: B →
      Cut vas op e A p B (vas.spawnMiddle op p m e t)

/-- A pass that does not get its nodes fails with the descriptor already cut. -/
theorem executeAccepted_cut (f : vas.Focus lo hi A p B) (hhi : hi < 2 ^ 64)
    (hh : op.operation.Hits op.address e (vas.region p)) (he : op.address + op.size = e)
    (he64 : e < 2 ^ 64) (hve : op.address ≤ e)
    (hn : ¬vas.NodesAvailable alloc op.operation op.address e p) :
    ∃ res vas', vas.executeAccepted alloc op p (vas.check op p) = (res, vas') ∧ res ≠ .okay ∧
      vas.Cut op e A p B vas' := by
  have hstop : (vas.region p).stop < 2 ^ 64 := Nat.lt_of_le_of_lt f.split.2.2.le hhi
  have hl' : (vas.check op p).meetsLeft = _ :=
    Operation.check_meetsLeft hh.accepts hh.lower (by omega)
  have hr' : (vas.check op p).meetsRight = _ :=
    Operation.check_meetsRight hh.accepts he he64 hstop
  have he' : Word.add op.address op.size = e := by rw [Word.add_of_lt (by omega), he]
  have hmov : has (vas.mem p).type permanent = false := hh.movable
  have hlow := hh.lower
  unfold executeAccepted
  rw [hmov, if_neg (by simp)]
  by_cases hl : op.operation.MeetsLeft op.address (vas.region p)
  · rw [if_pos (hl'.trans (decide_eq_true hl))]
    by_cases hr : op.operation.MeetsRight e (vas.region p)
    · exact absurd ⟨fun _ h => absurd hr h, fun h => absurd hl h, fun h => absurd hl h⟩ hn
    · rw [if_neg (by rw [hr'.trans (decide_eq_false hr)]; simp)]
      have hlt := hh.lt_stop hr
      rcases left_cases f op.operation with ⟨A, a, rfl, ha⟩ | ⟨hA, -⟩
      · refine absurd ⟨fun _ _ h => ?_, fun h => absurd hl h, fun h => absurd hl h⟩ hn
        exact absurd ha (h a (f.prev_eq.trans (by simp)))
      · obtain ⟨res, herr, hres⟩ := error_of_not_ok alloc vas.tree.inorder
          fun h => hn ⟨fun _ _ _ => h, fun h => absurd hl h, fun h => absurd hl h⟩
        have hlm := check_leftMergeable_eq_false hh.accepts hA
        exact ⟨res, _, executeStart_error f he' (by omega) hlt hlm herr, hres, .start⟩
  · rw [if_neg (by rw [hl'.trans (decide_eq_false hl)]; simp)]
    have hlt := hh.start_lt hl
    by_cases hr : op.operation.MeetsRight e (vas.region p)
    · rw [if_pos (hr'.trans (decide_eq_true hr))]
      rcases right_cases f op.operation with ⟨b, B, rfl, hb⟩ | ⟨hB, -⟩
      · refine absurd ⟨fun h => absurd h hl, fun _ _ h => ?_, fun _ h => absurd hr h⟩ hn
        exact absurd hb (h b f.next_eq)
      · obtain ⟨res, herr, hres⟩ := error_of_not_ok alloc vas.tree.inorder
          fun h => hn ⟨fun h => absurd h hl, fun _ _ _ => h, fun _ h => absurd hr h⟩
        have hrm := check_rightMergeable_eq_false hh.accepts hB
        exact ⟨res, _, executeEnd_error f hlt hh.upper hrm herr, hres, .stop hlt⟩
    · rw [if_neg (by rw [hr'.trans (decide_eq_false hr)]; simp)]
      cases hm : alloc.allocateNode vas.tree.inorder with
      | error res =>
          exact ⟨res, _, executeMiddle_error_first f he' hlt hve (hh.lt_stop hr) hm,
            alloc.error_ne_okay _ _ hm, .stop hlt⟩
      | ok m =>
          have hfresh := alloc.fresh _ _ hm
          rw [f.inorder] at hfresh
          cases hm' : alloc.allocateNode (A ++ p :: m :: B) with
          | error res =>
              obtain ⟨t, h1, ht⟩ :=
                executeMiddle_error_second f he' hlt hve (hh.lt_stop hr) hm hm'
              exact ⟨res, _, h1, alloc.error_ne_okay _ _ hm', .middle hlt (hh.lt_stop hr) ht hfresh⟩
          | ok n =>
              refine absurd ⟨fun h => absurd h hl, fun _ h => absurd h hr, ?_⟩ hn
              intro _ _ A' B' hin
              rw [f.inorder] at hin
              obtain ⟨rfl, -, rfl⟩ :=
                (List.append_cons_inj_of_notMem f.notMem_left f.notMem_right).mp hin
              exact ⟨m, n, hm, hm'⟩

/-- The cut shows unless it is at the very beginning of the region. -/
theorem executeAccepted_noNode (f : vas.Focus lo hi A p B) (hhi : hi < 2 ^ 64)
    (hh : op.operation.Hits op.address e (vas.region p)) (he : op.address + op.size = e)
    (he64 : e < 2 ^ 64) (hve : op.address ≤ e)
    (hn : ¬vas.NodesAvailable alloc op.operation op.address e p) :
    ∃ res vas', vas.executeAccepted alloc op p (vas.check op p) = (res, vas') ∧ res ≠ .okay ∧
      ((vas.region p).start = e → vas' = vas.cutStart p e) ∧
      ((vas.region p).start ≠ e → vas'.regions ≠ vas.regions) := by
  obtain ⟨res, vas', hcall, hres, hcut⟩ := executeAccepted_cut f hhi hh he he64 hve hn
  have hlow := hh.lower
  refine ⟨res, vas', hcall, hres, ?_⟩
  cases hcut with
  | start => exact ⟨fun _ => rfl, fun hne => regions_cutStart_ne f (by omega)⟩
  | stop hlt => exact ⟨fun h => absurd h (by omega), fun _ => regions_cutEnd_ne f hh.upper⟩
  | middle hlt _ ht =>
      exact ⟨fun h => absurd h (by omega), fun _ => regions_spawnMiddle_ne f ht⟩

end Accepted

/-! ## The run of an operation -/

/-- `p` is the node whose region lies around `v`. -/
structure Around (vas : Vas) (v : Nat) (p : Ptr) : Prop where
  mem : p ∈ vas.tree.inorder
  lower : (vas.region p).start ≤ v
  upper : v < (vas.region p).stop

/-- A pass invalidates the cache if it points to the region it works on. -/
def forget (vas : Vas) (p : Ptr) : Vas :=
  if vas.lastSearched = some p then { vas with lastSearched := none } else vas

/-- One pass of an operation that goes on: over a region that is tolerated, or
over one that is accepted. -/
inductive Passes (alloc : NodeAllocator) (op : Operation) (tolerant : Bool) (v e : Nat) (p : Ptr)
    (vas : Vas) : Vas → Prop
  | tolerated : ¬op.Accepts (vas.region p) → tolerant = true →
      Passes alloc op tolerant v e p vas (vas.forget p)
  | accepted {vas' : Vas} : vas.NodesAvailable alloc op v e p →
      Passed op v e p (vas.forget p) vas' → Passes alloc op tolerant v e p vas vas'

/-- The run of an operation on `[v, e)`, pass by pass. -/
inductive Executes (alloc : NodeAllocator) (op : Operation) (sparse tolerant : Bool) (e : Nat) :
    Nat → Vas → HandleResult → Vas → Prop
  | outOfRange {v : Nat} {vas : Vas} : (∀ p, ¬vas.Around v p) →
      Executes alloc op sparse tolerant e v vas .argumentOutOfRange vas
  | beyond {v : Nat} {vas : Vas} {p : Ptr} : vas.Around v p → (vas.region p).stop < e →
      sparse = false →
      Executes alloc op sparse tolerant e v vas .argumentOutOfRange (vas.forget p)
  | refused {v : Nat} {vas : Vas} {p : Ptr} : vas.Around v p →
      (e ≤ (vas.region p).stop ∨ sparse = true) → ¬op.Accepts (vas.region p) →
      tolerant = false → Executes alloc op sparse tolerant e v vas .pageFree (vas.forget p)
  | permanent {v : Nat} {vas : Vas} {p : Ptr} : vas.Around v p →
      (e ≤ (vas.region p).stop ∨ sparse = true) → op.Accepts (vas.region p) →
      has (vas.region p).type permanent = true →
      Executes alloc op sparse tolerant e v vas .failed (vas.forget p)
  | noNode {v : Nat} {vas vas' : Vas} {p : Ptr} {res : HandleResult} : vas.Around v p →
      (e ≤ (vas.region p).stop ∨ sparse = true) → op.Hits v e (vas.region p) →
      ¬vas.NodesAvailable alloc op v e p → res ≠ .okay → vas'.regions ≠ vas.regions →
        Executes alloc op sparse tolerant e v vas res vas'
  | last {v : Nat} {vas vas' : Vas} {p : Ptr} : vas.Around v p → e ≤ (vas.region p).stop →
      Passes alloc op tolerant v e p vas vas' → Executes alloc op sparse tolerant e v vas .okay vas'
  | more {v : Nat} {vas vas' vas'' : Vas} {p : Ptr} {res : HandleResult} : vas.Around v p →
      (vas.region p).stop < e → sparse = true →
      Passes alloc op tolerant v e p vas vas' →
      Executes alloc op sparse tolerant e (vas.region p).stop vas' res vas'' →
      Executes alloc op sparse tolerant e v vas res vas''

@[simp] theorem mem_forget (vas : Vas) (p : Ptr) : (vas.forget p).mem = vas.mem := by
  unfold forget
  split <;> rfl

@[simp] theorem tree_forget (vas : Vas) (p : Ptr) : (vas.forget p).tree = vas.tree := by
  unfold forget
  split <;> rfl

@[simp] theorem first_forget (vas : Vas) (p : Ptr) : (vas.forget p).first = vas.first := by
  unfold forget
  split <;> rfl

@[simp] theorem region_forget (vas : Vas) (p : Ptr) : (vas.forget p).region = vas.region := by
  unfold forget
  split <;> rfl

@[simp] theorem next_forget (vas : Vas) (p : Ptr) : (vas.forget p).next = vas.next := by
  unfold forget
  split <;> rfl

@[simp] theorem prev_forget (vas : Vas) (p : Ptr) : (vas.forget p).prev = vas.prev := by
  unfold forget
  split <;> rfl

@[simp] theorem regions_forget (vas : Vas) (p : Ptr) : (vas.forget p).regions = vas.regions := by
  unfold forget
  split <;> rfl

theorem Threaded.forget {vas : Vas} (h : vas.Threaded) (p : Ptr) : (vas.forget p).Threaded :=
  ⟨by simpa using h.links, by simpa using h.first⟩

/-- What a run relies on: the descriptors are threaded and their regions tile the
space. -/
structure Wf (vas : Vas) (lo hi : Nat) : Prop where
  threaded : vas.Threaded
  tiles : Tiles Region.start Region.stop lo vas.regions hi

theorem Wf.forget {vas : Vas} {lo hi : Nat} (h : vas.Wf lo hi) (p : Ptr) :
    (vas.forget p).Wf lo hi :=
  ⟨h.threaded.forget p, by simpa using h.tiles⟩

theorem Wf.focus {vas : Vas} {lo hi : Nat} (h : vas.Wf lo hi) {p : Ptr}
    (hp : p ∈ vas.tree.inorder) : ∃ A B, vas.Focus lo hi A p B := by
  obtain ⟨A, B, hin⟩ := List.append_of_mem hp
  exact ⟨A, B, h.threaded, h.tiles, hin⟩

theorem Wf.findRegion_eq_some {vas : Vas} {lo hi v : Nat} {p : Ptr} (h : vas.Wf lo hi)
    (hp : vas.Around v p) : vas.findRegion v = some p := by
  obtain ⟨A, B, f⟩ := h.focus hp.mem
  exact Vas.findRegion_eq_some f.inorder (fun x hx => (f.before x hx).trans hp.lower)
    ⟨hp.lower, hp.upper⟩
    (fun x hx => ⟨Nat.lt_of_lt_of_le hp.upper (f.after x hx).1, (f.after x hx).2⟩)

theorem around_of_findRegion {vas : Vas} {v : Nat} {p : Ptr} (h : vas.findRegion v = some p) :
    vas.Around v p := by
  obtain ⟨hmem, heq⟩ := AvlTree.mem_of_find h
  obtain ⟨hlow, hupp⟩ := MemoryRange.bounds_of_compareAddress heq
  exact ⟨hmem, hlow, hupp⟩

theorem Around.forget {vas : Vas} {v : Nat} {p : Ptr} (h : vas.Around v p) (q : Ptr) :
    (vas.forget q).Around v p :=
  ⟨by simpa using h.mem, by simpa using h.lower, by simpa using h.upper⟩

/-! ## The passes end -/

/-- Regions that end above an address. -/
def countAbove (v : Nat) (L : List Region) : Nat := L.countP fun r => v < r.stop

theorem countAbove_cons_of_lt {v : Nat} {r : Region} (L : List Region) (h : v < r.stop) :
    countAbove v (r :: L) = countAbove v L + 1 := by
  simp [countAbove, h]

theorem countAbove_cons_of_le {v : Nat} {r : Region} (L : List Region) (h : r.stop ≤ v) :
    countAbove v (r :: L) = countAbove v L := by
  simp [countAbove, h]

theorem countAbove_append (v : Nat) (A B : List Region) :
    countAbove v (A ++ B) = countAbove v A + countAbove v B := List.countP_append

theorem countAbove_eq_zero {lo hi v : Nat} {A : List Region}
    (h : Tiles Region.start Region.stop lo A hi) (hv : hi ≤ v) : countAbove v A = 0 := by
  rw [countAbove, List.countP_eq_zero]
  intro r hr
  have := h.bounds hr
  simp only [decide_eq_true_eq]
  omega

theorem countAbove_mono {v w : Nat} (h : v ≤ w) (L : List Region) :
    countAbove w L ≤ countAbove v L := by
  refine List.countP_mono_left fun r _ hr => ?_
  simp only [decide_eq_true_eq] at hr ⊢
  omega

theorem countAbove_lt {lo hi v : Nat} {A B : List Region} {r : Region}
    (h : Tiles Region.start Region.stop lo (A ++ r :: B) hi) (hv : r.start ≤ v ∧ v < r.stop) :
    countAbove r.stop (A ++ r :: B) < countAbove v (A ++ r :: B) := by
  obtain ⟨hA, -, -⟩ := h.split
  have := countAbove_mono (Nat.le_of_lt hv.2) B
  rw [countAbove_append, countAbove_append, countAbove_cons_of_lt B hv.2,
    countAbove_cons_of_le B (Nat.le_refl _), countAbove_eq_zero hA hv.1,
    countAbove_eq_zero hA (by omega)]
  omega

end Vas

theorem RegionStep.countAbove_lt {op : Operation} {v e lo hi : Nat} {r : Region}
    {L L' : List Region} (h : RegionStep op v e r L L') (hr : op.MeetsRight e r)
    (hL : Tiles Region.start Region.stop lo L hi) :
    Vas.countAbove r.stop L' < Vas.countAbove v L := by
  have hlow := h.hits.lower
  have hupp := h.hits.upper
  have hmono := Vas.countAbove_mono (Nat.le_of_lt hupp)
  have hzero : ∀ {A : List Region} {m : Nat}, Tiles Region.start Region.stop lo A m → m ≤ v →
      Vas.countAbove v A = 0 ∧ Vas.countAbove r.stop A = 0 := fun hA hm =>
    ⟨Vas.countAbove_eq_zero hA hm, Vas.countAbove_eq_zero hA (by omega)⟩
  cases h with
  | @mergeBoth A B a b _ hl _ ha hb =>
      have := hmono B
      obtain ⟨m, hA, h1, h2, h3, h4, h5, h6, h7⟩ := tiles_append.mp hL
      have := hzero hA (by omega)
      rw [Vas.countAbove_append, Vas.countAbove_append,
        Vas.countAbove_cons_of_lt (r := a.setStop b.stop) B
          (by simp only [Region.stop_setStop]; omega),
        Vas.countAbove_cons_of_le (r := a) _ (by omega),
        Vas.countAbove_cons_of_lt (r := r) _ hupp, Vas.countAbove_cons_of_lt (r := b) B (by omega)]
      omega
  | @mergeLeft A B a _ hl _ ha hb =>
      have := hmono B
      obtain ⟨m, hA, h1, h2, h3, h4, h5⟩ := tiles_append.mp hL
      have := hzero hA (by omega)
      rw [Vas.countAbove_append, Vas.countAbove_append,
        Vas.countAbove_cons_of_le (v := r.stop) (r := a.setStop r.stop) B (by simp),
        Vas.countAbove_cons_of_le (r := a) _ (by omega),
        Vas.countAbove_cons_of_lt (r := r) _ hupp]
      omega
  | @mergeRight A B b _ hl _ ha hb =>
      have := hmono B
      obtain ⟨m, hA, h1, h2, h3, h4, h5⟩ := tiles_append.mp hL
      have := hzero hA (by omega)
      rw [Vas.countAbove_append, Vas.countAbove_append,
        Vas.countAbove_cons_of_lt (r := b.setStart r.start) B
          (by simp only [Region.stop_setStart]; omega),
        Vas.countAbove_cons_of_lt (r := r) _ hupp, Vas.countAbove_cons_of_lt (r := b) B (by omega)]
      omega
  | @repurpose A B _ hl _ ha hb =>
      have := hmono B
      obtain ⟨m, hA, h1, h2, h3⟩ := tiles_append.mp hL
      have := hzero hA (by omega)
      rw [Vas.countAbove_append, Vas.countAbove_append,
        Vas.countAbove_cons_of_le (r := op.repurpose r) B (by simp),
        Vas.countAbove_cons_of_lt (r := r) _ hupp]
      omega
  | startMerge _ _ hnr _ => exact absurd hr hnr
  | startSpawn _ _ hnr _ => exact absurd hr hnr
  | @endMerge A B b _ hl _ hb =>
      have := hmono B
      obtain ⟨m, hA, h1, h2, h3, h4, h5⟩ := tiles_append.mp hL
      have := hzero hA (by omega)
      rw [Vas.countAbove_append, Vas.countAbove_append,
        Vas.countAbove_cons_of_le (r := (r.setStop v).clear guardHigh) _ (Nat.le_of_lt hupp),
        Vas.countAbove_cons_of_lt (r := b.setStart v) B (by simp only [Region.stop_setStart]; omega),
        Vas.countAbove_cons_of_lt (r := r) _ hupp, Vas.countAbove_cons_of_lt (r := b) B (by omega)]
      omega
  | @endSpawn A B _ hl _ hb =>
      have := hmono B
      obtain ⟨m, hA, h1, h2, h3⟩ := tiles_append.mp hL
      have := hzero hA (by omega)
      rw [Vas.countAbove_append, Vas.countAbove_append,
        Vas.countAbove_cons_of_le (r := (r.setStop v).clear guardHigh) _ (Nat.le_of_lt hupp),
        Vas.countAbove_cons_of_le (r := op.spawned v r.stop) B (by simp),
        Vas.countAbove_cons_of_lt (r := r) _ hupp]
      omega
  | middle _ _ hnr => exact absurd hr hnr

namespace Vas

/-! ## `execute` runs the passes -/

section Execute

variable {alloc : NodeAllocator} {lo hi e v : Nat} {vas vas' : Vas} {p : Ptr}

theorem Passed.wf {op : Operation} (h : Passed op v e p vas vas') (hw : vas.Wf lo hi)
    (hve : v < e) : vas'.Wf lo hi :=
  ⟨h.threaded, h.step.tiles hve hw.tiles⟩

theorem Passes.wf {op : Operation} {tolerant : Bool} (h : Passes alloc op tolerant v e p vas vas')
    (hw : vas.Wf lo hi) (hve : v < e) : vas'.Wf lo hi := by
  cases h with
  | tolerated => exact hw.forget p
  | accepted _ hp => exact hp.wf (hw.forget p) hve

/-- A pass that goes on leaves fewer regions to visit. -/
theorem Passes.countAbove_lt {op : Operation} {tolerant : Bool}
    (h : Passes alloc op tolerant v e p vas vas') (hw : vas.Wf lo hi) (hp : vas.Around v p)
    (hr : (vas.region p).stop < e) (hfree : op.isAllocation = false) :
    countAbove (vas.region p).stop vas'.regions < countAbove v vas.regions := by
  cases h with
  | tolerated =>
      obtain ⟨A, B, f⟩ := hw.focus hp.mem
      have ht := f.tiles
      rw [regions_forget]
      rw [f.regions] at ht ⊢
      exact Vas.countAbove_lt ht ⟨hp.lower, hp.upper⟩
  | accepted _ hpass =>
      have hstep := hpass.step
      rw [region_forget, regions_forget] at hstep
      refine hstep.countAbove_lt ?_ hw.tiles
      cases op with
      | allocate f c t => cases hfree
      | free => exact Or.inl (Nat.le_of_lt hr)

theorem NodesAvailable.forget {op : Operation} (h : vas.NodesAvailable alloc op v e p) :
    (vas.forget p).NodesAvailable alloc op v e p :=
  ⟨by simpa using h.start, by simpa using h.stop, by simpa using h.middle⟩

theorem NodesAvailable.of_forget {op : Operation}
    (h : (vas.forget p).NodesAvailable alloc op v e p) : vas.NodesAvailable alloc op v e p :=
  ⟨by simpa using h.start, by simpa using h.stop, by simpa using h.middle⟩

/-- The outcome of `execute` for the request `op`. -/
def Refines (alloc : NodeAllocator) (op : OperationParameters) (vas : Vas)
    (outcome : Option (HandleResult × OperationParameters × Vas)) : Prop :=
  ∃ res op' vas', outcome = some (res, op', vas') ∧
    Executes alloc op.operation op.sparse op.tolerant (op.address + op.size) op.address vas res
      vas' ∧
    (op.operation.isAllocation = true → op' = op)

theorem Wf.first_ne_none (h : vas.Wf lo hi) (hlohi : lo < hi) : vas.first ≠ none := by
  rw [h.threaded.first]
  have ht := h.tiles
  unfold regions at ht
  cases hin : vas.tree.inorder with
  | nil =>
      rw [hin] at ht
      exact absurd (tiles_nil.mp ht) (by omega)
  | cons p ps => simp

/-- The continuation of a request behind a region that ends at `stop`. -/
def continuation (op : OperationParameters) (stop : Nat) : OperationParameters :=
  { op with address := stop, size := Word.sub op.size (Word.sub stop op.address) }

theorem continuation_end {op : OperationParameters} {stop : Nat}
    (hwrap : op.address + op.size < 2 ^ 64) (hlow : op.address ≤ stop)
    (hupp : stop < op.address + op.size) :
    0 < (continuation op stop).size ∧ stop + (continuation op stop).size = op.address + op.size := by
  have h1 : Word.sub stop op.address = stop - op.address := Word.sub_of_le (by omega) hlow
  have h2 : Word.sub op.size (stop - op.address) = op.size - (stop - op.address) :=
    Word.sub_of_le (by omega) (by omega)
  simp only [continuation, h1, h2]
  omega

/-- One unfolding of `execute`, once the region is found. -/
theorem execute_succ {op : OperationParameters} {fuel : Nat} (hfirst : vas.first ≠ none)
    (hnull : op.operation.isAllocation = true → op.address ≠ 0)
    (hfind : vas.findRegion op.address = some p) (hwrap : op.address + op.size < 2 ^ 64) :
    vas.execute alloc (fuel + 1) op =
      if (vas.region p).stop < op.address + op.size ∧ op.sparse = false then
        some (.argumentOutOfRange, op, vas.forget p)
      else if ¬op.operation.Accepts (vas.region p) ∧ op.tolerant = false then
        some (.pageFree, op, vas.forget p)
      else
        let out := if op.operation.Accepts (vas.region p) then
          (vas.forget p).executeAccepted alloc op p ((vas.forget p).check op p)
          else (.okay, vas.forget p)
        if out.1 ≠ .okay then some (out.1, op, out.2)
        else if (vas.region p).stop < op.address + op.size ∧ (vas.region p).stop ≠ 0 then
          out.2.execute alloc fuel (continuation op (vas.region p).stop)
        else some (out.1, op, out.2) := by
  have hadd : Word.add op.address op.size = op.address + op.size := Word.add_of_lt hwrap
  have hacc : ((vas.forget p).check op p).accepted = decide (op.operation.Accepts (vas.region p)) := by
    rw [check_eq, Operation.check_accepted, region_forget]
  have hfail : ((vas.forget p).check op p).failureResult = .pageFree := by
    rw [check_eq, Operation.check_failureResult]
  rw [execute, if_neg hfirst, if_neg (fun h => hnull h.1 h.2), hfind]
  have hforget : (if vas.lastSearched = some p then { vas with lastSearched := none } else vas) =
      vas.forget p := rfl
  simp only [hforget, hadd, hacc, hfail, mem_forget, decide_eq_true_eq, gt_iff_lt,
    Bool.not_eq_true]
  rfl

/-- What follows a pass that goes on. -/
theorem execute_continue {op : OperationParameters} {fuel : Nat} (hp : vas.Around op.address p)
    (hspan : (vas.region p).stop < op.address + op.size → op.sparse = true)
    (halloc : op.operation.isAllocation = true → op.sparse = false)
    (hpass : Passes alloc op.operation op.tolerant op.address (op.address + op.size) p vas vas')
    (ih : (vas.region p).stop < op.address + op.size →
      Refines alloc (continuation op (vas.region p).stop) vas'
        (vas'.execute alloc fuel (continuation op (vas.region p).stop)))
    (hwrap : op.address + op.size < 2 ^ 64) :
    Refines alloc op vas
      (if (vas.region p).stop < op.address + op.size ∧ (vas.region p).stop ≠ 0 then
        vas'.execute alloc fuel (continuation op (vas.region p).stop)
      else some (.okay, op, vas')) := by
  have hlow := hp.lower
  have hupp := hp.upper
  by_cases hstop : (vas.region p).stop < op.address + op.size
  · rw [if_pos ⟨hstop, by omega⟩]
    obtain ⟨res, op', vas'', h1, h2, -⟩ := ih hstop
    obtain ⟨-, hend⟩ := continuation_end hwrap (Nat.le_of_lt hupp) hstop
    refine ⟨res, op', vas'', h1, .more hp hstop (hspan hstop) hpass ?_, fun h => ?_⟩
    · rw [← hend]
      exact h2
    · rw [halloc h] at hspan
      exact absurd (hspan hstop) (by simp)
  · rw [if_neg fun h => hstop h.1]
    exact ⟨.okay, op, vas', rfl, .last hp (by omega) hpass, fun _ => rfl⟩

/-- `execute` runs the operation pass by pass, with the fuel to do so. -/
theorem execute_refines (alloc : NodeAllocator) (hhi : hi < 2 ^ 64) (hlohi : lo < hi) :
    ∀ (fuel : Nat) (op : OperationParameters) (vas : Vas), vas.Wf lo hi →
      0 < op.size → op.address + op.size < 2 ^ 64 →
      (op.operation.isAllocation = true → op.address ≠ 0 ∧ op.sparse = false) →
      countAbove op.address vas.regions < fuel →
      Refines alloc op vas (vas.execute alloc fuel op) := by
  intro fuel
  induction fuel with
  | zero =>
      intro op vas _ _ _ _ h
      exact absurd h (Nat.not_lt_zero _)
  | succ fuel ih =>
      intro op vas hw hsize hwrap halloc hfuel
      have hfirst := hw.first_ne_none hlohi
      cases hfind : vas.findRegion op.address with
      | none =>
          refine ⟨.argumentOutOfRange, op, vas, ?_, .outOfRange fun p hp => ?_, fun _ => rfl⟩
          · rw [execute, if_neg hfirst, if_neg (fun h => (halloc h.1).1 h.2), hfind]
          · rw [hw.findRegion_eq_some hp] at hfind
            cases hfind
      | some p =>
          have hp := around_of_findRegion hfind
          obtain ⟨A, B, f⟩ := (hw.forget p).focus (by simpa using hp.mem)
          have hlow := hp.lower
          have hupp := hp.upper
          rw [execute_succ hfirst (fun h => (halloc h).1) hfind hwrap]
          by_cases hbeyond : (vas.region p).stop < op.address + op.size ∧ op.sparse = false
          · rw [if_pos hbeyond]
            exact ⟨_, _, _, rfl, .beyond hp hbeyond.1 hbeyond.2, fun _ => rfl⟩
          rw [if_neg hbeyond]
          have hspan : (vas.region p).stop < op.address + op.size → op.sparse = true :=
            fun h => by simpa [h] using hbeyond
          have hspan' : op.address + op.size ≤ (vas.region p).stop ∨ op.sparse = true := by
            by_cases h : (vas.region p).stop < op.address + op.size
            · exact Or.inr (hspan h)
            · exact Or.inl (by omega)
          -- the continuation meets the conditions of the induction hypothesis
          have hcont : ∀ {vas'},
              Passes alloc op.operation op.tolerant op.address (op.address + op.size) p vas vas' →
              (vas.region p).stop < op.address + op.size →
              Refines alloc (continuation op (vas.region p).stop) vas'
                (vas'.execute alloc fuel (continuation op (vas.region p).stop)) := by
            intro vas' hpass hstop
            obtain ⟨hpos, hend⟩ := continuation_end hwrap (Nat.le_of_lt hupp) hstop
            have hfree : op.operation.isAllocation = false := by
              cases h : op.operation.isAllocation with
              | false => rfl
              | true => rw [hspan hstop] at halloc; exact absurd (halloc h).2 (by simp)
            have hcount := hpass.countAbove_lt hw hp hstop hfree
            refine ih _ vas' (hpass.wf hw (by omega)) hpos ?_ ?_ ?_
            · show (vas.region p).stop + _ < _
              omega
            · intro h
              rw [show (continuation op _).operation = op.operation from rfl, hfree] at h
              cases h
            · show countAbove (vas.region p).stop vas'.regions < fuel
              omega
          by_cases hacc : op.operation.Accepts (vas.region p)
          · rw [if_neg fun h => h.1 hacc]
            simp only [if_pos hacc]
            by_cases hperm : has (vas.region p).type permanent = true
            · have hfail : (vas.forget p).executeAccepted alloc op p ((vas.forget p).check op p) =
                  (.failed, vas.forget p) := by
                rw [executeAccepted, if_pos (by rw [mem_forget]; exact hperm)]
              rw [hfail, if_pos (by simp)]
              exact ⟨_, _, _, rfl, .permanent hp hspan' hacc hperm, fun _ => rfl⟩
            · have hh : op.operation.Hits op.address (op.address + op.size) (vas.region p) := by
                refine ⟨hlow, hupp, hacc, by simpa using hperm, fun h => ?_⟩
                rcases hspan' with h' | h'
                · exact h'
                · rw [(halloc h).2] at h'
                  cases h'
              have hh' : op.operation.Hits op.address (op.address + op.size)
                  ((vas.forget p).region p) := by
                simpa using hh
              by_cases hn : vas.NodesAvailable alloc op.operation op.address
                  (op.address + op.size) p
              · obtain ⟨vas', h1, hpass⟩ := executeAccepted_passed f hhi hh' rfl hwrap (by omega)
                  hn.forget
                rw [h1, if_neg (by simp)]
                have hpasses : Passes alloc op.operation op.tolerant _ _ p vas vas' :=
                  .accepted hn hpass
                exact execute_continue hp hspan (fun h => (halloc h).2) hpasses
                  (hcont hpasses) hwrap
              · obtain ⟨res, vas', h1, hres, -, hne⟩ := executeAccepted_noNode f hhi hh' rfl hwrap
                  (by omega) (fun h => hn h.of_forget)
                have hne := hne (by rw [region_forget]; omega)
                rw [h1, if_pos hres]
                exact ⟨_, _, _, rfl, .noNode hp hspan' hh hn hres (by simpa using hne), fun _ => rfl⟩
          · by_cases htol : op.tolerant = false
            · rw [if_pos ⟨hacc, htol⟩]
              exact ⟨_, _, _, rfl, .refused hp hspan' hacc htol, fun _ => rfl⟩
            · rw [if_neg fun h => htol h.2]
              simp only [if_neg hacc]
              rw [if_neg (by simp)]
              have hpasses : Passes alloc op.operation op.tolerant op.address
                  (op.address + op.size) p vas (vas.forget p) :=
                .tolerated hacc (by simpa using htol)
              exact execute_continue hp hspan (fun h => (halloc h).2) hpasses
                (hcont hpasses) hwrap

end Execute

end Vas

end Beelzebub.Memory
