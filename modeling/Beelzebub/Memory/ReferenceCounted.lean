import Beelzebub.Lib.Threads
import Mathlib.Logic.Function.Basic
import Mathlib.Tactic.NormNum

/-!
# The split reference counter

An object counts the references that were acquired and those that were released, in two words.
A thread that releases a reference increments the one count and then loads the other; when they
are equal it releases the memory.

A step is one access of a counter.  References may be passed between threads.
-/

namespace Beelzebub.References

/-! ## The code -/

/-- Where a thread is in `ReleaseReference`: after the increment it has a count. -/
inductive Releasing where
  | idle
  | loading (count : ℕ)

/-- The object and its users.  The fields after `place` are only for the record: the references
that each thread has, the acquisitions and the releases without wrapping, for a thread that is
about to load the number of its release, the threads that called `ReleaseMemory`, and those
that accessed a counter after that. -/
structure ReferenceCounted (ι : Type) where
  acquireCount : ℕ
  releaseCount : ℕ
  place : ι → Releasing
  held : ι → ℕ
  acquired : ℕ
  released : ℕ
  number : ι → ℕ
  freedBy : List ι
  late : List ι

namespace ReferenceCounted

variable {ι : Type} [DecidableEq ι]

/-- The thread that has made the object has acquired the first reference. -/
def initial (i : ι) : ReferenceCounted ι where
  acquireCount := 1
  releaseCount := 0
  place _ := .idle
  held := Function.update (fun _ => 0) i 1
  acquired := 1
  released := 0
  number _ := 0
  freedBy := []
  late := []

/-- An access of a counter. -/
def touch (i : ι) (s : ReferenceCounted ι) : ReferenceCounted ι :=
  { s with late := if s.freedBy = [] then s.late else i :: s.late }

def acquireReference (i : ι) (s : ReferenceCounted ι) : ReferenceCounted ι :=
  { s.touch i with
    acquireCount := (s.acquireCount + 1) % 2 ^ 64
    held := Function.update s.held i (s.held i + 1)
    acquired := s.acquired + 1 }

/-- The increment of `ReleaseReference`. -/
def releaseReference (i : ι) (s : ReferenceCounted ι) : ReferenceCounted ι :=
  { s.touch i with
    releaseCount := (s.releaseCount + 1) % 2 ^ 64
    place := Function.update s.place i (.loading ((s.releaseCount + 1) % 2 ^ 64))
    held := Function.update s.held i (s.held i - 1)
    released := s.released + 1
    number := Function.update s.number i (s.released + 1) }

/-- The load of `ReleaseReference`, and what follows. -/
def load (i : ι) (s : ReferenceCounted ι) : ReferenceCounted ι :=
  match s.place i with
  | .idle => s
  | .loading count =>
      { s.touch i with
        place := Function.update s.place i .idle
        freedBy := if count = s.acquireCount then i :: s.freedBy else s.freedBy }

/-- A reference is passed on. -/
def pass (i j : ι) (s : ReferenceCounted ι) : ReferenceCounted ι :=
  let held := Function.update s.held i (s.held i - 1)
  { s with held := Function.update held j (held j + 1) }

inductive Action (ι : Type) where
  | acquireReference (i : ι)
  | releaseReference (i : ι)
  | load (i : ι)
  | pass (i j : ι)

def perform (s : ReferenceCounted ι) : Action ι → ReferenceCounted ι
  | .acquireReference i => s.acquireReference i
  | .releaseReference i => s.releaseReference i
  | .load i => s.load i
  | .pass i j => s.pass i j

omit [DecidableEq ι] in
/-- Only a holder acquires, and a reference is released or passed by its holder. -/
def Enabled (s : ReferenceCounted ι) : Action ι → Prop
  | .acquireReference i => s.place i = .idle ∧ 0 < s.held i
  | .releaseReference i => s.place i = .idle ∧ 0 < s.held i
  | .load i => ∃ count, s.place i = .loading count
  | .pass i _ => 0 < s.held i

inductive Reachable (kind : ReferenceCounted ι → Action ι → Prop) : ReferenceCounted ι → Prop
  | start (i : ι) : Reachable kind (initial i)
  | step {s : ReferenceCounted ι} (a : Action ι) : Reachable kind s → s.Enabled a → kind s a →
      Reachable kind (s.perform a)

/-- No thread has a reference, nor is one in the middle of a release. -/
def Quiet (s : ReferenceCounted ι) : Prop := ∀ i, s.held i = 0 ∧ s.place i = .idle

/-! ## What is asked -/

/-- One thread calls `ReleaseMemory`, when no reference is left. -/
structure ReleasedOnce (s : ReferenceCounted ι) : Prop where
  last : s.freedBy ≠ [] → ∀ i, s.held i = 0
  once : s.freedBy.length ≤ 1
  some_thread : s.Quiet → ∃ i, s.freedBy = [i]

/-! ## The conditions -/

/-- Fewer than `2 ^ 64` references were acquired that are not released by the thread that loads
or before it. -/
def Close (s : ReferenceCounted ι) : Action ι → Prop
  | .load i => s.acquired - s.number i < 2 ^ 64
  | _ => True

/-- Besides, a load that finds the counts equal is made while no other thread is in the middle
of a release. -/
def Fit (s : ReferenceCounted ι) : Action ι → Prop
  | .load i => s.acquired - s.number i < 2 ^ 64 ∧
      (s.place i = .loading s.acquireCount → ∀ j, j ≠ i → s.place j = .idle)
  | _ => True

/-! ## The invariant -/

variable [Fintype ι]

structure Inv (s : ReferenceCounted ι) : Prop where
  acquireCount : s.acquireCount = s.acquired % 2 ^ 64
  releaseCount : s.releaseCount = s.released % 2 ^ 64
  sum : s.acquired = s.released + Threads.total id s.held
  pending : ∀ i count, s.place i = .loading count →
    count = s.number i % 2 ^ 64 ∧ s.number i ≤ s.released
  distinct : ∀ i j count count', i ≠ j → s.place i = .loading count →
    s.place j = .loading count' → s.number i ≠ s.number j
  last : s.released = s.acquired → s.freedBy = [] →
    ∃ i count, s.place i = .loading count ∧ s.number i = s.released
  freed : s.freedBy ≠ [] → s.released = s.acquired ∧ s.freedBy.length = 1 ∧
    ∀ i count, s.place i = .loading count → s.number i ≠ s.released

variable {s : ReferenceCounted ι} {i j : ι}

omit [DecidableEq ι] in
/-- While a reference is held the memory is not released. -/
theorem Inv.not_freed (h : s.Inv) (hi : 0 < s.held i) :
    s.released < s.acquired ∧ s.freedBy = [] := by
  have hle := Threads.le_total id s.held i
  have hsum := h.sum
  have hlt : s.released < s.acquired := by
    rw [hsum]
    exact Nat.lt_add_of_pos_right (Nat.lt_of_lt_of_le hi hle)
  refine ⟨hlt, ?_⟩
  by_contra hfreed
  have heq := (h.freed hfreed).1
  omega

omit [DecidableEq ι] in
theorem Inv.toReleasedOnce (h : s.Inv) : s.ReleasedOnce := by
  refine ⟨?_, ?_, ?_⟩
  · intro hfreed i
    by_contra hi
    exact hfreed (h.not_freed (Nat.pos_of_ne_zero hi)).2
  · cases hlist : s.freedBy with
    | nil => exact Nat.zero_le 1
    | cons i rest =>
        have hlength := (h.freed (by rw [hlist]; exact List.cons_ne_nil i rest)).2.1
        rw [hlist] at hlength
        exact hlength.le
  · intro hquiet
    have hzero : Threads.total id s.held = 0 := Threads.total_eq_zero.mpr fun i => (hquiet i).1
    have hsum := h.sum
    cases hlist : s.freedBy with
    | nil =>
        obtain ⟨i, count, hi, -⟩ := h.last (by omega) hlist
        rw [(hquiet i).2] at hi
        cases hi
    | cons i rest =>
        have hlength := (h.freed (by rw [hlist]; exact List.cons_ne_nil i rest)).2.1
        rw [hlist, List.length_cons] at hlength
        have hnil : rest = [] := List.eq_nil_of_length_eq_zero (by omega)
        exact ⟨i, by rw [hnil]⟩

theorem inv_initial (i : ι) : (initial i).Inv := by
  have htotal := Threads.total_update (w := id) (f := fun _ : ι => 0) (i := i) (a := 1)
  rw [Threads.total_const 0 rfl] at htotal
  refine ⟨by rfl, rfl, ?_, ?_, ?_, ?_, ?_⟩
  · show 1 = 0 + Threads.total id (Function.update (fun _ => 0) i 1)
    have htotal : Threads.total id (Function.update (fun _ => 0) i 1) + 0 = 0 + 1 := htotal
    omega
  · intro j count hj
    cases hj
  · intro j k count count' _ hj
    cases hj
  · intro heq
    cases heq
  · intro hfreed
    exact (hfreed rfl).elim

/-! ### One step -/

theorem add_one_mod (x : ℕ) : (x % 2 ^ 64 + 1) % 2 ^ 64 = (x + 1) % 2 ^ 64 :=
  Nat.mod_add_mod x (2 ^ 64) 1

theorem Inv.acquireReference (h : s.Inv) (hi : 0 < s.held i) : (s.acquireReference i).Inv := by
  obtain ⟨hlt, hfreed⟩ := h.not_freed hi
  have htotal := Threads.total_update (w := id) (f := s.held) (i := i) (a := s.held i + 1)
  have htotal : Threads.total id (Function.update s.held i (s.held i + 1)) + s.held i =
      Threads.total id s.held + (s.held i + 1) := htotal
  have hsum := h.sum
  refine ⟨?_, h.releaseCount, ?_, h.pending, h.distinct, ?_, ?_⟩
  · show (s.acquireCount + 1) % 2 ^ 64 = (s.acquired + 1) % 2 ^ 64
    rw [h.acquireCount, add_one_mod]
  · show s.acquired + 1 =
      s.released + Threads.total id (Function.update s.held i (s.held i + 1))
    omega
  · intro heq
    have heq : s.released = s.acquired + 1 := heq
    omega
  · intro hne
    exact (hne hfreed).elim

/-- The thread that increments is the last one so far. -/
theorem Inv.releaseReference (h : s.Inv) (hi : 0 < s.held i) : (s.releaseReference i).Inv := by
  obtain ⟨hlt, hfreed⟩ := h.not_freed hi
  have htotal := Threads.total_update (w := id) (f := s.held) (i := i) (a := s.held i - 1)
  have htotal : Threads.total id (Function.update s.held i (s.held i - 1)) + s.held i =
      Threads.total id s.held + (s.held i - 1) := htotal
  have hsum := h.sum
  have hplace : ∀ j count, (s.releaseReference i).place j = .loading count →
      (j = i ∧ count = (s.releaseCount + 1) % 2 ^ 64 ∧
        (s.releaseReference i).number j = s.released + 1) ∨
      (j ≠ i ∧ s.place j = .loading count ∧ (s.releaseReference i).number j = s.number j) := by
    intro j count hj
    by_cases hji : j = i
    · have hj : Function.update s.place i (.loading ((s.releaseCount + 1) % 2 ^ 64)) j =
        .loading count := hj
      rw [hji, Function.update_self] at hj
      cases hj
      refine Or.inl ⟨hji, rfl, ?_⟩
      rw [hji]
      exact Function.update_self _ _ _
    · refine Or.inr ⟨hji, ?_, Function.update_of_ne hji _ _⟩
      have hsame : (s.releaseReference i).place j = s.place j := Function.update_of_ne hji _ _
      rwa [hsame] at hj
  refine ⟨h.acquireCount, ?_, ?_, ?_, ?_, ?_, ?_⟩
  · show (s.releaseCount + 1) % 2 ^ 64 = (s.released + 1) % 2 ^ 64
    rw [h.releaseCount, add_one_mod]
  · show s.acquired =
      s.released + 1 + Threads.total id (Function.update s.held i (s.held i - 1))
    omega
  · intro j count hj
    show _ ∧ _ ≤ s.released + 1
    obtain ⟨-, hcount, hnumber⟩ | ⟨-, hj', hnumber⟩ := hplace j count hj
    · rw [hnumber, hcount, h.releaseCount, add_one_mod]
      exact ⟨rfl, le_rfl⟩
    · obtain ⟨hcount, hle⟩ := h.pending j count hj'
      rw [hnumber]
      exact ⟨hcount, Nat.le_succ_of_le hle⟩
  · intro j k count count' hjk hj hk
    obtain ⟨hji, -, hnumber⟩ | ⟨hji, hj', hnumber⟩ := hplace j count hj
    · obtain ⟨hki, -, -⟩ | ⟨-, hk', hnumber'⟩ := hplace k count' hk
      · exact (hjk (hji.trans hki.symm)).elim
      · have hle := (h.pending k count' hk').2
        rw [hnumber, hnumber']
        omega
    · have hle := (h.pending j count hj').2
      obtain ⟨-, -, hnumber'⟩ | ⟨-, hk', hnumber'⟩ := hplace k count' hk
      · rw [hnumber, hnumber']
        omega
      · rw [hnumber, hnumber']
        exact h.distinct j k count count' hjk hj' hk'
  · intro _ _
    exact ⟨i, _, Function.update_self _ _ _, Function.update_self _ _ _⟩
  · intro hne
    exact (hne hfreed).elim

omit [DecidableEq ι] in
/-- A load does not find the counts equal by wrapping. -/
theorem Inv.count_eq (h : s.Inv) {count : ℕ} (hi : s.place i = .loading count)
    (hclose : s.acquired - s.number i < 2 ^ 64) :
    count = s.acquireCount ↔ s.number i = s.acquired := by
  obtain ⟨hcount, hle⟩ := h.pending i count hi
  have hsum := h.sum
  rw [hcount, h.acquireCount]
  constructor
  · intro heq
    omega
  · intro heq
    rw [heq]

omit [Fintype ι] in
theorem load_of {count : ℕ} (hi : s.place i = .loading count) : s.load i = { s.touch i with
    place := Function.update s.place i .idle
    freedBy := if count = s.acquireCount then i :: s.freedBy else s.freedBy } := by
  unfold ReferenceCounted.load
  rw [hi]

omit [Fintype ι] in
theorem load_place {count : ℕ} (hi : s.place i = .loading count) : (s.load i).place i = .idle := by
  rw [load_of hi]
  exact Function.update_self _ _ _

theorem Inv.load (h : s.Inv) {count : ℕ} (hi : s.place i = .loading count)
    (hclose : s.acquired - s.number i < 2 ^ 64) : (s.load i).Inv := by
  have hiff := h.count_eq hi hclose
  obtain ⟨-, hle⟩ := h.pending i count hi
  have hsum := h.sum
  have hplace : ∀ j count', Function.update s.place i .idle j = .loading count' →
      j ≠ i ∧ s.place j = .loading count' := by
    intro j count' hj
    by_cases hji : j = i
    · rw [hji, Function.update_self] at hj
      cases hj
    · rw [Function.update_of_ne hji] at hj
      exact ⟨hji, hj⟩
  rw [load_of hi]
  refine ⟨h.acquireCount, h.releaseCount, h.sum, ?_, ?_, ?_, ?_⟩
  · intro j count' hj
    exact h.pending j count' (hplace j count' hj).2
  · intro j k count' count'' hjk hj hk
    exact h.distinct j k count' count'' hjk (hplace j count' hj).2 (hplace k count'' hk).2
  · intro heq hfreed
    have heq : s.released = s.acquired := heq
    have hfreed : (if count = s.acquireCount then i :: s.freedBy else s.freedBy) = [] := hfreed
    by_cases hcount : count = s.acquireCount
    · rw [if_pos hcount] at hfreed
      cases hfreed
    · rw [if_neg hcount] at hfreed
      obtain ⟨j, count', hj, hnumber⟩ := h.last heq hfreed
      have hji : j ≠ i := by
        rintro rfl
        exact hcount (hiff.mpr (hnumber.trans heq))
      exact ⟨j, count', (Function.update_of_ne hji _ _).trans hj, hnumber⟩
  · intro hne
    have hne : (if count = s.acquireCount then i :: s.freedBy else s.freedBy) ≠ [] := hne
    show s.released = s.acquired ∧
      (if count = s.acquireCount then i :: s.freedBy else s.freedBy).length = 1 ∧
        ∀ j count', Function.update s.place i .idle j = .loading count' →
          s.number j ≠ s.released
    by_cases hcount : count = s.acquireCount
    · have hnumber := hiff.mp hcount
      have heq : s.released = s.acquired := by omega
      have hnil : s.freedBy = [] := by
        by_contra hfreed
        exact (h.freed hfreed).2.2 i count hi (hnumber.trans heq.symm)
      rw [if_pos hcount, hnil]
      refine ⟨heq, rfl, fun j count' hj => ?_⟩
      obtain ⟨hji, hj'⟩ := hplace j count' hj
      rw [heq, ← hnumber]
      exact h.distinct j i count' count hji hj' hi
    · rw [if_neg hcount] at hne ⊢
      obtain ⟨heq, hlength, hother⟩ := h.freed hne
      exact ⟨heq, hlength, fun j count' hj => hother j count' (hplace j count' hj).2⟩

theorem Inv.pass (h : s.Inv) (hi : 0 < s.held i) (j : ι) : (s.pass i j).Inv := by
  have hfirst := Threads.total_update (w := id) (f := s.held) (i := i) (a := s.held i - 1)
  have hsecond := Threads.total_update (w := id)
    (f := Function.update s.held i (s.held i - 1)) (i := j)
    (a := Function.update s.held i (s.held i - 1) j + 1)
  have hfirst : Threads.total id (Function.update s.held i (s.held i - 1)) + s.held i =
      Threads.total id s.held + (s.held i - 1) := hfirst
  have hsecond : Threads.total id (s.pass i j).held +
      Function.update s.held i (s.held i - 1) j =
        Threads.total id (Function.update s.held i (s.held i - 1)) +
          (Function.update s.held i (s.held i - 1) j + 1) := hsecond
  have hsum := h.sum
  refine ⟨h.acquireCount, h.releaseCount, ?_, h.pending, h.distinct, h.last, h.freed⟩
  show s.acquired = s.released + Threads.total id (s.pass i j).held
  omega

theorem Inv.step (h : s.Inv) (a : Action ι) (ha : s.Enabled a) (hclose : s.Close a) :
    (s.perform a).Inv := by
  cases a with
  | acquireReference i => exact h.acquireReference ha.2
  | releaseReference i => exact h.releaseReference ha.2
  | load i =>
      obtain ⟨count, hi⟩ := ha
      exact h.load hi hclose
  | pass i j => exact h.pass ha j

/-! ## Runs -/

theorem Reachable.inv (h : Reachable Close s) : s.Inv := by
  induction h with
  | start i => exact inv_initial i
  | step a _ ha hclose ih => exact ih.step a ha hclose

/-- One thread calls `ReleaseMemory`, and only when no reference is left. -/
theorem Reachable.releasedOnce (h : Reachable Close s) : s.ReleasedOnce := h.inv.toReleasedOnce

/-- Two threads release the two references, and the second one releases the memory. -/
theorem Reachable.releasedOnce_two : ∃ s : ReferenceCounted (Fin 2), s.freedBy = [1] ∧
    s.ReleasedOnce := by
  have h : Reachable Close (initial (0 : Fin 2)) := .start 0
  have h := h.step (.acquireReference 0) ⟨rfl, by decide⟩ trivial
  have h := h.step (.pass 0 1) (show 0 < 2 by decide) trivial
  have h := h.step (.releaseReference 0) ⟨rfl, by decide⟩ trivial
  have h := h.step (.load 0) ⟨1, rfl⟩ (show 2 - 1 < 2 ^ 64 by norm_num)
  have h := h.step (.releaseReference 1) ⟨rfl, by decide⟩ trivial
  have h := h.step (.load 1) ⟨2, rfl⟩ (show 2 - 2 < 2 ^ 64 by norm_num)
  exact ⟨_, rfl, Reachable.releasedOnce h⟩

/-- One thread is about to load, and the other one acquires and releases in turn. -/
theorem reachable_spin (k : ℕ) : ∃ s : ReferenceCounted (Fin 2), Reachable (fun _ _ => True) s ∧
    s.acquireCount = (2 + k) % 2 ^ 64 ∧ s.releaseCount = (1 + k) % 2 ^ 64 ∧ s.place 0 = .idle ∧
      s.place 1 = .loading 1 ∧ s.held 0 = 1 ∧ s.freedBy = [] := by
  induction k with
  | zero =>
      have h : Reachable (fun _ _ => True) (initial (0 : Fin 2)) := .start 0
      have h := h.step (.acquireReference 0) ⟨rfl, by decide⟩ trivial
      have h := h.step (.pass 0 1) (show 0 < 2 by decide) trivial
      have h := h.step (.releaseReference 1) ⟨rfl, by decide⟩ trivial
      exact ⟨_, h, rfl, rfl, rfl, rfl, rfl, rfl⟩
  | succ k ih =>
      obtain ⟨s, h, hacquire, hrelease, hidle, hloading, hheld, hfreed⟩ := ih
      have hne : (1 : Fin 2) ≠ 0 := by decide
      have h := h.step (.acquireReference 0) ⟨hidle, by rw [hheld]; exact Nat.one_pos⟩ trivial
      have hheld' : (s.perform (.acquireReference 0)).held 0 = 2 := by
        show Function.update s.held 0 (s.held 0 + 1) 0 = 2
        rw [Function.update_self, hheld]
      have h := h.step (.releaseReference 0) ⟨hidle, by rw [hheld']; exact Nat.two_pos⟩ trivial
      have hplace : ((s.perform (.acquireReference 0)).perform (.releaseReference 0)).place 0 =
          .loading ((s.releaseCount + 1) % 2 ^ 64) := by
        show Function.update s.place 0 (.loading ((s.releaseCount + 1) % 2 ^ 64)) 0 = _
        rw [Function.update_self]
      have h := h.step (.load 0) ⟨_, hplace⟩ trivial
      have hdiff : (s.releaseCount + 1) % 2 ^ 64 ≠ (s.acquireCount + 1) % 2 ^ 64 := by omega
      have hload := load_of hplace
      have hdone := load_place hplace
      refine ⟨_, h, ?_⟩
      refine ⟨?_, ?_, hdone, ?_, ?_, ?_⟩
      · have hcount : (s.acquireCount + 1) % 2 ^ 64 = (2 + (k + 1)) % 2 ^ 64 := by
          rw [hacquire, add_one_mod, Nat.add_assoc]
        exact (congrArg acquireCount hload).trans hcount
      · have hcount : (s.releaseCount + 1) % 2 ^ 64 = (1 + (k + 1)) % 2 ^ 64 := by
          rw [hrelease, add_one_mod, Nat.add_assoc]
        exact (congrArg releaseCount hload).trans hcount
      · have hother : Function.update (Function.update s.place 0 (.loading
            ((s.releaseCount + 1) % 2 ^ 64))) 0 .idle 1 = .loading 1 := by
          rw [Function.update_of_ne hne, Function.update_of_ne hne, hloading]
        exact (congrArg (fun t => t.place 1) hload).trans hother
      · have hone : Function.update (s.perform (.acquireReference 0)).held 0
            ((s.perform (.acquireReference 0)).held 0 - 1) 0 = 1 := by
          rw [Function.update_self, hheld']
        exact (congrArg (fun t => t.held 0) hload).trans hone
      · exact (congrArg freedBy hload).trans ((if_neg hdiff).trans hfreed)

/-- After enough acquisitions a load finds the counts equal though a reference is left. -/
theorem Reachable.released_early : ¬ ∀ s : ReferenceCounted (Fin 2),
    Reachable (fun _ _ => True) s → s.ReleasedOnce := by
  intro hclaim
  obtain ⟨s, h, hacquire, -, -, hloading, hheld, hfreed⟩ := reachable_spin (2 ^ 64 - 1)
  have h := h.step (.load 1) ⟨1, hloading⟩ trivial
  have hlast := (hclaim _ h).last
  have hload : (s.perform (.load 1)).freedBy = [1] ∧ (s.perform (.load 1)).held 0 = 1 := by
    show (s.load 1).freedBy = [1] ∧ (s.load 1).held 0 = 1
    rw [load_of hloading]
    refine ⟨?_, hheld⟩
    show (if 1 = s.acquireCount then 1 :: s.freedBy else s.freedBy) = [1]
    rw [hacquire, hfreed]
    exact if_pos (by norm_num)
  have hzero := hlast (by rw [hload.1]; exact List.cons_ne_nil _ _) 0
  rw [hload.2] at hzero
  cases hzero

/-! ## After the release -/

omit [Fintype ι] in
theorem Reachable.close (h : Reachable Fit s) : Reachable Close s := by
  induction h with
  | start i => exact .start i
  | step a _ ha hfit ih =>
      refine ih.step a ha ?_
      cases a with
      | load i => exact hfit.1
      | _ => trivial

/-- In a run whose steps meet the condition no counter is accessed after the release. -/
theorem Reachable.untouched (h : Reachable Fit s) :
    s.late = [] ∧ (s.freedBy ≠ [] → s.Quiet) := by
  induction h with
  | start i => exact ⟨rfl, fun hne => (hne rfl).elim⟩
  | @step s a hrun ha hfit ih =>
      obtain ⟨hlate, hquiet⟩ := ih
      have hinv := hrun.close.inv
      have htouch : ∀ i, s.freedBy = [] → (s.touch i).late = [] := by
        intro i hfreed
        exact (if_pos hfreed).trans hlate
      cases a with
      | acquireReference i =>
          have hfreed := (hinv.not_freed ha.2).2
          exact ⟨htouch i hfreed, fun hne => (hne hfreed).elim⟩
      | releaseReference i =>
          have hfreed := (hinv.not_freed ha.2).2
          exact ⟨htouch i hfreed, fun hne => (hne hfreed).elim⟩
      | load i =>
          obtain ⟨count, hi⟩ := ha
          have hfreed : s.freedBy = [] := by
            by_contra hne
            have hidle := (hquiet hne i).2
            rw [hi] at hidle
            cases hidle
          have hnext := (hrun.step (.load i) ⟨count, hi⟩ hfit).close.inv.toReleasedOnce.last
          show (s.load i).late = [] ∧ ((s.load i).freedBy ≠ [] → (s.load i).Quiet)
          have hplace : (s.load i).freedBy ≠ [] → ∀ j, (s.load i).place j = .idle := by
            rw [load_of hi]
            intro hne j
            show Function.update s.place i .idle j = .idle
            have hne : (if count = s.acquireCount then i :: s.freedBy else s.freedBy) ≠ [] := hne
            by_cases hcount : count = s.acquireCount
            · by_cases hji : j = i
              · rw [hji, Function.update_self]
              · rw [Function.update_of_ne hji]
                exact hfit.2 (hi.trans (by rw [hcount])) j hji
            · rw [if_neg hcount] at hne
              exact (hne hfreed).elim
          refine ⟨?_, fun hne j => ⟨hnext hne j, hplace hne j⟩⟩
          rw [load_of hi]
          exact htouch i hfreed
      | pass i j =>
          have hfreed := (hinv.not_freed ha).2
          exact ⟨hlate, fun hne => (hne hfreed).elim⟩

/-- Two threads release in turn. -/
theorem Reachable.untouched_two : ∃ s : ReferenceCounted (Fin 2), s.freedBy = [1] ∧
    s.late = [] ∧ (s.freedBy ≠ [] → s.Quiet) := by
  have h : Reachable Fit (initial (0 : Fin 2)) := .start 0
  have h := h.step (.acquireReference 0) ⟨rfl, by decide⟩ trivial
  have h := h.step (.pass 0 1) (show 0 < 2 by decide) trivial
  have h := h.step (.releaseReference 0) ⟨rfl, by decide⟩ trivial
  have h := h.step (.load 0) ⟨1, rfl⟩ ⟨show 2 - 1 < 2 ^ 64 by norm_num, fun heq => nomatch heq⟩
  have h := h.step (.releaseReference 1) ⟨rfl, by decide⟩ trivial
  have h := h.step (.load 1) ⟨2, rfl⟩ ⟨show 2 - 2 < 2 ^ 64 by norm_num, fun _ j hj => by
    obtain rfl : j = 0 := by omega
    rfl⟩
  exact ⟨_, rfl, Reachable.untouched h⟩

/-- Both threads increment before either loads: the first one loads from what the second one has
released. -/
theorem Reachable.loaded_late : ¬ ∀ s : ReferenceCounted (Fin 2),
    Reachable (fun _ _ => True) s → s.late = [] := by
  intro hclaim
  have h : Reachable (fun _ _ => True) (initial (0 : Fin 2)) := .start 0
  have h := h.step (.acquireReference 0) ⟨rfl, by decide⟩ trivial
  have h := h.step (.pass 0 1) (show 0 < 2 by decide) trivial
  have h := h.step (.releaseReference 0) ⟨rfl, by decide⟩ trivial
  have h := h.step (.releaseReference 1) ⟨rfl, by decide⟩ trivial
  have h := h.step (.load 1) ⟨2, rfl⟩ trivial
  have h := h.step (.load 0) ⟨1, rfl⟩ trivial
  cases hclaim _ h

end ReferenceCounted

end Beelzebub.References
