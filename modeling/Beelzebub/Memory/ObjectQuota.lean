import Beelzebub.Memory.ObjectAllocator

/-!
# The quota of an object allocator

The count of busy objects is raised before anything else is tried, and compared with the quota.
Each way out of `AllocateObject` that hands out no object has to take it back; the one for a
first pool that is refused does not.
-/

namespace Beelzebub.Objects.ObjectAllocator

variable {cfg : Config} {s s' : ObjectAllocator} {estimatedLeft estimate a i o : ℕ}
  {acquired previous : Option ℕ} {granted : Bool}

/-- What the program may deallocate: an object that it has, or anything that is refused. -/
def Permitted (cfg : Config) (s : ObjectAllocator) : Action → Prop
  | .deallocate o => o ∈ s.live ∨ ∃ e s', s.deallocateObject cfg o = some (.error e, s')
  | _ => True

/-- No first pool is refused to an allocation below the quota. -/
def Undisturbed (cfg : Config) (s : ObjectAllocator) : Action → Prop
  | .allocate _ acquired _ => s.busyCount < cfg.quota → s.firstPool = none → acquired ≠ none
  | _ => True

/-- The states after finitely many calls that come back. -/
inductive Run (cfg : Config) (kind : ObjectAllocator → Action → Prop) : ObjectAllocator → Prop
  | start : Run cfg kind initial
  | call {s s' : ObjectAllocator} (a : Action) : Run cfg kind s → kind s a →
      s.perform cfg a = some s' → Run cfg kind s'

/-- The quota counts live objects. -/
structure QuotaCounts (cfg : Config) (s : ObjectAllocator) : Prop where
  busyCount : s.busyCount = s.live.length
  live_le : s.live.length ≤ cfg.quota
  full : ∀ estimatedLeft acquired granted s',
    s.allocateObject cfg estimatedLeft acquired granted =
      some (.error .objaMaximumCapacity, s') → s.live.length = cfg.quota

/-! ## What the calls do to the counts -/

/-- So many objects are counted as busy, and these are live. -/
structure Counts (n : ℕ) (live : List ℕ) (s : ObjectAllocator) : Prop where
  busyCount : s.busyCount = n
  live : s.live = live

/-- A pool with a free object hands it out. -/
theorem takeFrom_counts {r : Except HandleResult ℕ × ObjectAllocator}
    (h : s.takeFrom cfg estimatedLeft granted a = some r) :
    (∃ o, r.1 = .ok o) ∧ Counts s.busyCount s.live r.2 := by
  simp only [takeFrom] at h
  split at h
  next hfull =>
    obtain ⟨q, -, rfl⟩ := Option.map_eq_some_iff.mp h
    split
    · exact ⟨⟨_, rfl⟩, rfl, rfl⟩
    · exact ⟨⟨_, rfl⟩, rfl, rfl⟩
  next hfree =>
    cases h
    exact ⟨⟨_, rfl⟩, rfl, rfl⟩

/-- How `AllocateObject` comes back. -/
inductive AllocateOutcome (cfg : Config) (s : ObjectAllocator) (acquired : Option ℕ) :
    Except HandleResult ℕ × ObjectAllocator → Prop
  | full : cfg.quota ≤ s.busyCount → AllocateOutcome cfg s acquired (.error .objaMaximumCapacity, s)
  | allocated {o : ℕ} {s' : ObjectAllocator} : s.busyCount < cfg.quota →
      (s.firstPool = none → acquired ≠ none) → Counts (s.busyCount + 1) s.live s' →
      AllocateOutcome cfg s acquired (.ok o, s')
  | refusedFirst {s' : ObjectAllocator} : s.busyCount < cfg.quota → s.firstPool = none →
      acquired = none → Counts (s.busyCount + 1) s.live s' →
      AllocateOutcome cfg s acquired (.error .outOfMemory, s')
  | refusedNext {s' : ObjectAllocator} : s.busyCount < cfg.quota → s.firstPool ≠ none →
      Counts s.busyCount s.live s' → AllocateOutcome cfg s acquired (.error .objaPoolsExhausted, s')

theorem allocateObject_cases {r : Except HandleResult ℕ × ObjectAllocator}
    (h : s.allocateObject cfg estimatedLeft acquired granted = some r) :
    AllocateOutcome cfg s acquired r := by
  rw [allocateObject] at h
  split at h
  next hfull =>
    cases h
    exact .full hfull
  next hbelow =>
    have hlt : s.busyCount < cfg.quota := Nat.lt_of_not_ge hbelow
    simp only [allocateBelow] at h
    cases hfirst : s.firstPool with
    | none =>
        cases acquired with
        | none =>
            simp only [hfirst, acquireFirst, Option.some.injEq] at h
            cases h
            exact .refusedFirst hlt hfirst rfl ⟨rfl, rfl⟩
        | some a =>
            simp only [hfirst, acquireFirst] at h
            obtain ⟨p, -, htake⟩ := Option.bind_eq_some_iff.mp h
            obtain ⟨⟨o, ho⟩, hcounts⟩ := takeFrom_counts htake
            obtain ⟨res, s'⟩ := r
            cases ho
            exact .allocated hlt (fun _ => Option.some_ne_none a) hcounts
    | some first =>
        have hne : s.firstPool ≠ none := by simp [hfirst]
        simp only [hfirst] at h
        split at h
        next =>
          obtain ⟨⟨o, ho⟩, hcounts⟩ := takeFrom_counts h
          obtain ⟨res, s'⟩ := r
          cases ho
          exact .allocated hlt (fun hnone => absurd hnone hne) hcounts
        next last _ =>
          cases acquired with
          | none =>
              simp only [acquireNext, Option.some.injEq] at h
              cases h
              exact .refusedNext hlt hne ⟨rfl, rfl⟩
          | some a =>
              obtain ⟨p, -, rfl⟩ := Option.map_eq_some_iff.mp h
              exact .allocated hlt (fun hnone => absurd hnone hne) ⟨rfl, rfl⟩
        next => cases h

theorem deallocateObject_ok {s' : ObjectAllocator}
    (h : s.deallocateObject cfg o = some (.ok (), s')) :
    Counts (s.busyCount - 1) s.live s' := by
  rw [deallocateObject] at h
  split at h
  · cases h
  · split at h
    · cases h
    · split at h
      · cases h
      · cases h
      · cases h
        simp only [freeIn, unplug, putBack]
        split
        · split
          · exact ⟨rfl, rfl⟩
          · exact ⟨rfl, rfl⟩
        · exact ⟨rfl, rfl⟩

theorem deallocateObject_error {e : HandleResult}
    (h : s.deallocateObject cfg o = some (.error e, s')) : s' = s := by
  rw [deallocateObject] at h
  split at h
  · cases h
    rfl
  · split at h
    · cases h
      rfl
    · split at h
      · cases h
        rfl
      · cases h
      · cases h

theorem forceExpand_counts {r : Except HandleResult Unit × ObjectAllocator}
    (h : s.forceExpand cfg estimate acquired = some r) : Counts s.busyCount s.live r.2 := by
  rw [forceExpand.eq_def] at h
  split at h
  · cases h
    exact ⟨rfl, rfl⟩
  · cases acquired with
    | none =>
        cases h
        exact ⟨rfl, rfl⟩
    | some a =>
        obtain ⟨p, -, rfl⟩ := Option.map_eq_some_iff.mp h
        exact ⟨rfl, rfl⟩

/-! ## One call -/

/-- The count and the quota are all that is needed. -/
theorem quotaCounts_iff :
    QuotaCounts cfg s ↔ s.busyCount = s.live.length ∧ s.live.length ≤ cfg.quota := by
  constructor
  · intro h
    exact ⟨h.busyCount, h.live_le⟩
  · rintro ⟨hbusy, hle⟩
    refine ⟨hbusy, hle, fun estimatedLeft acquired granted s' h => ?_⟩
    cases allocateObject_cases h with
    | full hquota => omega

theorem QuotaCounts.of_counts {n : ℕ} {live : List ℕ} (h : Counts n live s)
    (hn : n = live.length) (hle : n ≤ cfg.quota) : QuotaCounts cfg s := by
  rw [quotaCounts_iff, h.busyCount, h.live]
  exact ⟨hn, hn ▸ hle⟩

/-- A call leaves the count right unless it is an allocation whose first pool is refused. -/
theorem QuotaCounts.perform_iff (h : QuotaCounts cfg s) {c : Action} (hc : s.Permitted cfg c)
    (hs' : s.perform cfg c = some s') : QuotaCounts cfg s' ↔ s.Undisturbed cfg c := by
  have hbusy := h.busyCount
  have hle := h.live_le
  cases c with
  | allocate estimatedLeft acquired granted =>
      obtain ⟨r, hr, rfl⟩ := Option.map_eq_some_iff.mp hs'
      cases allocateObject_cases hr with
      | full hquota => exact iff_of_true h fun hlt => absurd hquota (Nat.not_le_of_lt hlt)
      | allocated hlt hsome hcounts =>
          refine iff_of_true (quotaCounts_iff.mpr ?_) fun _ => hsome
          dsimp only
          rw [hcounts.busyCount, hcounts.live, List.length_cons]
          omega
      | refusedFirst hlt hfirst hnone hcounts =>
          refine iff_of_false (fun h' => ?_) fun hund => hund hlt hfirst hnone
          have hraised := h'.busyCount
          dsimp only at hraised
          rw [hcounts.busyCount, hcounts.live] at hraised
          omega
      | refusedNext hlt hne hcounts =>
          exact iff_of_true (.of_counts hcounts hbusy (by omega)) fun _ hnone => absurd hnone hne
  | deallocate o =>
      obtain ⟨⟨res, t⟩, hr, rfl⟩ := Option.map_eq_some_iff.mp hs'
      refine iff_of_true ?_ trivial
      cases res with
      | error e => exact deallocateObject_error hr ▸ h
      | ok u =>
          have hcounts := deallocateObject_ok hr
          have hmem : o ∈ s.live := by
            rcases hc with hmem | ⟨e, s', herr⟩
            · exact hmem
            · rw [hr] at herr
              cases herr
          have hpos := List.length_pos_of_mem hmem
          refine quotaCounts_iff.mpr ?_
          dsimp only
          rw [hcounts.busyCount, hcounts.live, List.length_erase_of_mem hmem]
          omega
  | forceExpand estimate acquired =>
      obtain ⟨r, hr, rfl⟩ := Option.map_eq_some_iff.mp hs'
      exact iff_of_true (.of_counts (forceExpand_counts hr) hbusy (by omega)) trivial
  | write a i value =>
      cases hs'
      have hcounts : Counts s.busyCount s.live (s.setPool a
          { s.pools a with objects := Function.update (s.pools a).objects i value }) := ⟨rfl, rfl⟩
      exact iff_of_true (.of_counts hcounts hbusy (by omega)) trivial

/-! ## Runs -/

theorem quotaCounts_initial : QuotaCounts cfg initial :=
  quotaCounts_iff.mpr ⟨rfl, Nat.zero_le _⟩

/-- As long as no first pool is refused to an allocation below the quota, the quota counts live
objects; and the first such refusal ends that. -/
theorem Run.quotaCounts
    (h : Run cfg (fun s c => s.Permitted cfg c ∧ s.Undisturbed cfg c) s) :
    QuotaCounts cfg s ∧ ∀ c s', s.Permitted cfg c → s.perform cfg c = some s' →
      (QuotaCounts cfg s' ↔ s.Undisturbed cfg c) := by
  have hcounts : QuotaCounts cfg s := by
    induction h with
    | start => exact quotaCounts_initial
    | call c _ hkind hs' ih => exact (ih.perform_iff hkind.1 hs').mpr hkind.2
  exact ⟨hcounts, fun c s' => hcounts.perform_iff⟩

/-- An allocator for a single object. -/
def single : Config where
  sizes := ⟨64, 24, by decide, by decide⟩
  enlarges := false
  releaseOptions := .keepOne
  busyBit := false
  quota := 1

theorem Run.quotaCounts_single :
    QuotaCounts single initial ∧ ∀ c s', initial.Permitted single c →
      initial.perform single c = some s' → (QuotaCounts single s' ↔ initial.Undisturbed single c) :=
  Run.quotaCounts .start

/-- When the heap has no pages once, the quota of one object is used up without an object. -/
theorem not_quotaCounts_of_refused :
    ¬∀ (cfg : Config) (s : ObjectAllocator), Run cfg (Permitted cfg) s → QuotaCounts cfg s := by
  intro h
  have hrun : Run single (Permitted single) { initial with busyCount := 1 } :=
    .call (.allocate 1 none false) .start trivial rfl
  have hbusy : 1 = 0 := (h _ _ hrun).busyCount
  cases hbusy

end Beelzebub.Objects.ObjectAllocator
