import Beelzebub.Memory.ObjectAllocator

/-!
# Disposing of an object allocator

`Dispose` walks the chain of pools with one cursor.  With many consumers a first loop locks all
pools, and leaves the cursor null; with a single one there is no such loop, and nothing sets the
cursor.  The second loop, which releases the pools, begins with what the cursor happens to be.

A null or wild pointer that is read through is the outcome `none`, and so are more rounds than
are given.
-/

namespace Beelzebub.Objects

/-! ## The code -/

inductive Build where
  | singleConsumer
  | multiConsumer

inductive DisposalResult where
  | objectDisposed
  | other (r : HandleResult)

/-- An allocator with what `Dispose` clears, and the addresses where there are pools. -/
structure Disposable where
  state : ObjectAllocator
  quota : ℕ
  acquirePool : Bool
  enlargePool : Bool
  releasePool : Bool
  mapped : List ℕ

namespace Disposable

/-- `current->Next`. -/
def readNext (d : Disposable) : Option ℕ → Option (Option ℕ)
  | none => none
  | some current => if current ∈ d.mapped then some (d.state.pools current).next else none

/-- The loop that locks the pools, for so many rounds, and the cursor that it leaves. -/
def lockAll (d : Disposable) : ℕ → Option ℕ → Option (Option ℕ)
  | 0, _ => none
  | rounds + 1, current =>
      (d.readNext current).bind fun
        | none => some none
        | some next => d.lockAll rounds (some next)

/-- `ReleasePool`, which may fail and leave the pool where it is. -/
def release (frees : ℕ → Bool) (current : ℕ) (d : Disposable) : Option Disposable :=
  if d.releasePool then
    some { d with mapped := if frees current then d.mapped.erase current else d.mapped }
  else none

/-- The loop that releases the pools, for so many rounds, and the pools in the order of the
calls. -/
def releaseAll (frees : ℕ → Bool) : ℕ → Option ℕ → Disposable → Option (List ℕ × Disposable)
  | _, none, _ => none
  | 0, some _, _ => none
  | rounds + 1, some current, d =>
      (d.readNext (some current)).bind fun next =>
        (d.release frees current).bind fun d =>
          match next with
          | none => some ([current], d)
          | some next => (releaseAll frees rounds (some next) d).map fun r => (current :: r.1, r.2)

/-- The fields after the loops. -/
def clear (d : Disposable) : Disposable :=
  { d with
    state := { d.state with
      firstPool := none, poolCount := 0, capacity := 0, freeCount := 0, busyCount := 0 }
    acquirePool := false
    enlargePool := false
    releasePool := false
    quota := 0 }

/-- `Dispose`, where the variable for the cursor holds `uninitialised`. -/
def dispose (build : Build) (uninitialised : Option ℕ) (frees : ℕ → Bool) (rounds : ℕ)
    (d : Disposable) : Option (List ℕ × Disposable) :=
  let start := match build with
    | .singleConsumer => some uninitialised
    | .multiConsumer => d.lockAll rounds d.state.firstPool
  start.bind fun current =>
    (releaseAll frees rounds current d).map fun r => (r.1, r.2.clear)

/-- `AllocateObject` with the check whether the allocator is disposed of. -/
def allocateObject (cfg : Config) (estimatedLeft : ℕ) (acquired : Option ℕ) (granted : Bool)
    (d : Disposable) : Option (Except DisposalResult ℕ × Disposable) :=
  if d.state.busyCount ≥ d.quota then some (.error (.other .objaMaximumCapacity), d)
  else if d.acquirePool then
    (d.state.allocateObject { cfg with quota := d.quota, enlarges := d.enlargePool } estimatedLeft
      acquired granted).map fun r => (r.1.mapError .other, { d with state := r.2 })
  else
    some (.error .objectDisposed,
      { d with state := { d.state with busyCount := d.state.busyCount + 1 } })

/-- `DeallocateObject` with that check. -/
def deallocateObject (cfg : Config) (o : ℕ) (d : Disposable) :
    Option (Except DisposalResult Unit × Disposable) :=
  if cfg.busyBit = true ∧ d.state.busy o = false then
    some (.error (.other .objaAlreadyFree), d)
  else if d.acquirePool then
    (d.state.deallocateObject cfg o).map fun r =>
      (r.1.mapError .other, { d with state := r.2 })
  else some (.error .objectDisposed, d)

/-! ## What is asked -/

/-- The pools of the allocator, in the order of the chain. -/
structure Holds (d : Disposable) (l : List ℕ) : Prop where
  chain : d.state.Chained l
  nodup : l.Nodup
  mapped : ∀ a ∈ l, a ∈ d.mapped
  releasePool : d.releasePool = true

/-- `Dispose` comes back, has released each pool once, and leaves an allocator that refuses
everything as disposed of. -/
def DisposesOnce (cfg : Config) (build : Build) (uninitialised : Option ℕ) (frees : ℕ → Bool)
    (d : Disposable) (l : List ℕ) : Prop :=
  ∃ rounds calls d', d.dispose build uninitialised frees rounds = some (calls, d') ∧
    calls.Perm l ∧
    (∀ estimatedLeft acquired granted,
      d'.allocateObject cfg estimatedLeft acquired granted = some (.error .objectDisposed, d')) ∧
    ∀ o, d'.deallocateObject cfg o = some (.error .objectDisposed, d')

/-! ## The loops -/

variable {cfg : Config} {build : Build} {uninitialised current acquired : Option ℕ}
  {frees : ℕ → Bool} {rounds a o estimatedLeft : ℕ} {granted : Bool} {d d' : Disposable}
  {l calls : List ℕ}

/-- The first loop ends with a cursor that is null. -/
theorem lockAll_eq_none {r : Option ℕ} (h : d.lockAll rounds current = some r) : r = none := by
  induction rounds generalizing current with
  | zero => cases h
  | succ rounds ih =>
      obtain ⟨next, -, hnext⟩ := Option.bind_eq_some_iff.mp h
      cases next with
      | none =>
          cases hnext
          rfl
      | some next => exact ih hnext

/-- With the first loop, `Dispose` does not come back. -/
theorem dispose_multiConsumer : d.dispose .multiConsumer uninitialised frees rounds = none := by
  simp only [dispose]
  cases h : d.lockAll rounds d.state.firstPool with
  | none => rfl
  | some r =>
      rw [lockAll_eq_none h, Option.bind_some, releaseAll]
      rfl

theorem releaseAll_succ (rounds current : ℕ) (d : Disposable) :
    releaseAll frees (rounds + 1) (some current) d =
      if current ∈ d.mapped then
        (d.release frees current).bind fun e =>
          match (d.state.pools current).next with
          | none => some ([current], e)
          | some next => (releaseAll frees rounds (some next) e).map fun r => (current :: r.1, r.2)
      else none := by
  rw [releaseAll, readNext]
  split
  · rfl
  · rfl

theorem release_state (h : d.release frees a = some d') :
    d'.state = d.state ∧ d'.releasePool = d.releasePool ∧
      ∀ b ∈ d.mapped, b ≠ a → b ∈ d'.mapped := by
  rw [release] at h
  split at h
  · cases h
    refine ⟨rfl, rfl, fun b hb hne => ?_⟩
    dsimp only
    split
    · exact (List.mem_erase_of_ne hne).mpr hb
    · exact hb
  · cases h

/-- The second loop calls for the pool that it begins with. -/
theorem releaseAll_mem (h : releaseAll frees rounds (some a) d = some (calls, d')) :
    a ∈ calls := by
  cases rounds with
  | zero => cases h
  | succ rounds =>
      rw [releaseAll_succ] at h
      split at h
      next =>
        obtain ⟨e, -, h⟩ := Option.bind_eq_some_iff.mp h
        split at h
        next =>
          cases h
          exact List.mem_singleton_self a
        next =>
          obtain ⟨r, -, heq⟩ := Option.map_eq_some_iff.mp h
          cases heq
          exact List.mem_cons_self
      next => cases h

/-- From a pool of the chain on, the second loop follows the chain. -/
theorem releaseAll_calls
    (hchain : Linked.Chain (fun a => (d.state.pools a).next) current l)
    (h : releaseAll frees rounds current d = some (calls, d')) : calls = l := by
  induction rounds generalizing current d calls l with
  | zero =>
      cases current with
      | none => cases h
      | some current => cases h
  | succ rounds ih =>
      cases l with
      | nil =>
          cases hchain
          cases h
      | cons x l =>
          obtain ⟨rfl, hrest⟩ := hchain
          have hrest : Linked.Chain (fun a => (d.state.pools a).next) (d.state.pools x).next l := hrest
          rw [releaseAll_succ] at h
          split at h
          next =>
            obtain ⟨e, he, h⟩ := Option.bind_eq_some_iff.mp h
            obtain ⟨hstate, -, -⟩ := release_state he
            cases hnext : (d.state.pools x).next with
            | none =>
                rw [hnext] at h hrest
                cases h
                cases l with
                | nil => rfl
                | cons y l => cases hrest.1
            | some next =>
                rw [hnext] at h hrest
                obtain ⟨r, hr, heq⟩ := Option.map_eq_some_iff.mp h
                cases heq
                rw [ih (by rw [hstate]; exact hrest) hr]
          next => cases h

/-- From the first pool on, the second loop releases the pools of the chain. -/
theorem releaseAll_chain
    (hchain : Linked.Chain (fun a => (d.state.pools a).next) (some a) l)
    (hnodup : l.Nodup) (hmapped : ∀ b ∈ l, b ∈ d.mapped) (hrelease : d.releasePool = true) :
    ∃ d', releaseAll frees l.length (some a) d = some (l, d') := by
  induction l generalizing a d with
  | nil => cases hchain
  | cons x l ih =>
      obtain ⟨hx, hrest⟩ := hchain
      obtain rfl : a = x := Option.some.inj hx
      have hrest : Linked.Chain (fun a => (d.state.pools a).next) (d.state.pools a).next l := hrest
      obtain ⟨hnot, hnodup'⟩ := List.nodup_cons.mp hnodup
      obtain ⟨e, he⟩ : ∃ e, d.release frees a = some e := ⟨_, if_pos hrelease⟩
      obtain ⟨hstate, hfun, hkeep⟩ := release_state he
      rw [List.length_cons, releaseAll_succ, if_pos (hmapped a List.mem_cons_self), he,
        Option.bind_some]
      cases hnext : (d.state.pools a).next with
      | none =>
          rw [hnext] at hrest
          cases l with
          | nil => exact ⟨_, rfl⟩
          | cons y l => cases hrest.1
      | some next =>
          rw [hnext] at hrest
          rw [← hstate] at hrest
          have hall : ∀ b ∈ l, b ∈ e.mapped := by
            intro b hb
            refine hkeep b (hmapped b (List.mem_cons_of_mem _ hb)) ?_
            rintro rfl
            exact hnot hb
          obtain ⟨d', hd'⟩ := ih hrest hnodup' hall (hfun.trans hrelease)
          exact ⟨d', by simp only [hd', Option.map_some]⟩

/-- Without the first loop, each pool is released once exactly if there is one, and the variable
happens to point to the first. -/
theorem dispose_singleConsumer_iff (h : d.Holds l) :
    (∃ rounds calls d', d.dispose .singleConsumer uninitialised frees rounds = some (calls, d') ∧
      calls.Perm l) ↔ l ≠ [] ∧ uninitialised = l.head? := by
  constructor
  · rintro ⟨rounds, calls, d', hd, hperm⟩
    obtain ⟨⟨calls', e⟩, hr, heq⟩ := Option.map_eq_some_iff.mp hd
    cases heq
    cases uninitialised with
    | none =>
        rw [releaseAll] at hr
        cases hr
    | some a =>
        have hmem : a ∈ l := hperm.mem_iff.mp (releaseAll_mem hr)
        obtain ⟨xs, ys, rfl⟩ := List.append_of_mem hmem
        obtain rfl := releaseAll_calls h.chain.suffix hr
        have hlen : (a :: ys).length = (xs ++ a :: ys).length := hperm.length_eq
        rw [List.length_append] at hlen
        obtain rfl : xs = [] := List.length_eq_zero_iff.mp (by omega)
        exact ⟨List.cons_ne_nil a ys, rfl⟩
  · rintro ⟨hne, rfl⟩
    cases l with
    | nil => exact absurd rfl hne
    | cons a l =>
        have hchain := h.chain
        rw [ObjectAllocator.Chained, Linked.Chain.head? hchain] at hchain
        obtain ⟨d', hd'⟩ := releaseAll_chain hchain h.nodup h.mapped h.releasePool
        refine ⟨(a :: l).length, a :: l, d'.clear, ?_, .refl _⟩
        rw [dispose, Option.bind_some, List.head?_cons, hd']
        rfl

/-! ## After the loops -/

/-- An allocator that is disposed of has a quota of none, and says that it is full. -/
theorem clear_allocateObject :
    d.clear.allocateObject cfg estimatedLeft acquired granted =
      some (.error (.other .objaMaximumCapacity), d.clear) :=
  if_pos (Nat.le_refl 0)

theorem not_disposesOnce : ¬DisposesOnce cfg build uninitialised frees d l := by
  rintro ⟨rounds, calls, d', hd, -, hallocate, -⟩
  obtain ⟨start, -, hr⟩ := Option.bind_eq_some_iff.mp hd
  obtain ⟨r, -, heq⟩ := Option.map_eq_some_iff.mp hr
  cases heq
  have hfull := hallocate 0 none false
  rw [clear_allocateObject] at hfull
  cases hfull

/-- With many consumers `Dispose` never comes back.  With a single one it releases each pool once
exactly if there is one and the variable that is not set points to it; and then too the allocator
does not say that it is disposed of. -/
theorem dispose_spec (h : d.Holds l) :
    (∀ rounds, d.dispose .multiConsumer uninitialised frees rounds = none) ∧
    ((∃ rounds calls d', d.dispose .singleConsumer uninitialised frees rounds = some (calls, d') ∧
      calls.Perm l) ↔ l ≠ [] ∧ uninitialised = l.head?) ∧
    ∀ cfg build, ¬DisposesOnce cfg build uninitialised frees d l :=
  ⟨fun _ => dispose_multiConsumer, dispose_singleConsumer_iff h, fun _ _ => not_disposesOnce⟩

/-- An allocator that nothing was allocated from. -/
def unused : Disposable where
  state := .initial
  quota := 1
  acquirePool := true
  enlargePool := true
  releasePool := true
  mapped := []

theorem unused_holds : unused.Holds [] where
  chain := rfl
  nodup := .nil
  mapped _ h := nomatch h
  releasePool := rfl

theorem dispose_spec_unused :
    (∀ rounds, unused.dispose .multiConsumer none (fun _ => true) rounds = none) ∧
    ((∃ rounds calls d', unused.dispose .singleConsumer none (fun _ => true) rounds =
      some (calls, d') ∧ calls.Perm []) ↔ ([] : List ℕ) ≠ [] ∧ none = ([] : List ℕ).head?) ∧
    ∀ cfg build, ¬DisposesOnce cfg build none (fun _ => true) unused [] :=
  dispose_spec unused_holds

/-- An allocator without pools is not disposed of. -/
theorem unused_not_disposesOnce :
    ¬∀ (cfg : Config) (build : Build) (uninitialised : Option ℕ) (frees : ℕ → Bool)
      (d : Disposable) (l : List ℕ), d.Holds l →
      DisposesOnce cfg build uninitialised frees d l := by
  intro hall
  exact not_disposesOnce (hall ⟨⟨8, 24, by decide, by decide⟩, true, .releaseAll, false, 1⟩
    .multiConsumer none (fun _ => true) unused [] unused_holds)

end Disposable

end Beelzebub.Objects
