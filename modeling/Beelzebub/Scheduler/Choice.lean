import Beelzebub.Scheduler.Queues
import Mathlib.Data.List.MinMax

/-!
# The thread that is chosen

In a run of `Push` and `Pop` the queues hold the threads that were pushed and not popped since,
in the order of the pushes.  The best of them for a core is the first among those of the highest
priority that may run there.  `Pop` looks at one priority only, and finds the best thread exactly
if the highest priority of all has a thread for the core, or no priority has one.
-/

namespace Beelzebub

namespace Scheduler

/-- The first of the greatest elements of a list. -/
theorem argmax_middle {α β : Type} [LinearOrder β] {f : α → β} {as bs : List α} {x : α}
    (has : ∀ a ∈ as, f a < f x) (hbs : ∀ b ∈ bs, f b ≤ f x) :
    (as ++ x :: bs).argmax f = some x := by
  classical
  have hx : x ∉ as := fun hmem => lt_irrefl _ (has x hmem)
  refine List.argmax_eq_some_iff.mpr ⟨by simp, ?_, ?_⟩
  · intro a ha
    rcases List.mem_append.mp ha with ha | ha
    · exact le_of_lt (has a ha)
    · rcases List.mem_cons.mp ha with rfl | ha
      · exact le_refl _
      · exact hbs a ha
  · intro a _ hle
    have hnot : a ∉ as := fun hmem => not_lt_of_ge hle (has a hmem)
    rw [List.idxOf_append_of_notMem hx, List.idxOf_append_of_notMem hnot, List.idxOf_cons_self]
    exact Nat.le_add_right _ _

namespace SchedulerData

variable {τ : Type} [DecidableEq τ]

/-! ## What is asked -/

/-- Nothing is queued; threads may have any data. -/
structure Blank (s : SchedulerData τ) : Prop where
  bitmap : s.bitmap = 0#64
  queues : ∀ p, s.queues p = ⟨none, none⟩

/-- What `Push` asserts of a thread, for one that is not queued. -/
structure Pushable (l : List τ) (t : τ) (s : SchedulerData τ) : Prop where
  out : t ∉ l
  priority : (s.threads t).priority < priorityLevels
  next : s.next t = none
  previous : s.previous t = none

/-- The threads that are left when one was taken. -/
def remaining (l : List τ) : Option τ → List τ
  | none => l
  | some t => l.erase t

/-- A run of `Push` and `Pop`, with the threads that are queued, in the order of the pushes. -/
inductive Run [Fintype τ] (s₀ : SchedulerData τ) : SchedulerData τ → List τ → Prop
  | start : Run s₀ s₀ []
  | push {s : SchedulerData τ} {l : List τ} (t : τ) : Run s₀ s l → s.Pushable l t →
      Run s₀ (s.push t) (l ++ [t])
  | pop {s : SchedulerData τ} {l : List τ} (cpu : Nat) (empty : Bool) : Run s₀ s l →
      Run s₀ (s.pop cpu empty).2 (remaining l (s.pop cpu empty).1)

/-- The threads of one priority. -/
def level (l : List τ) (s : SchedulerData τ) (p : Nat) : List τ :=
  l.filter fun t => (s.threads t).priority = p

/-- Among the threads that may run on the core, the first of the highest priority. -/
def best (cpu : Nat) (l : List τ) (s : SchedulerData τ) : Option τ :=
  (l.filter (s.admits cpu)).argmax fun t => (s.threads t).priority

/-- `Pop` returns the best thread, and the queues hold the others in their order. -/
def PicksBest [Fintype τ] (cpu : Nat) (empty : Bool) (l : List τ) (s : SchedulerData τ) : Prop :=
  (s.pop cpu empty).1 = s.best cpu l ∧
    (s.pop cpu empty).2.Queued ((s.pop cpu empty).2.level (remaining l (s.best cpu l)))

/-! ## The condition -/

/-- If any thread may run on the core, one of the highest priority of all may. -/
def Servable (cpu : Nat) (l : List τ) (s : SchedulerData τ) : Prop :=
  ∀ t ∈ l, s.admits cpu t = true → ∃ u ∈ l, s.admits cpu u = true ∧
    ∀ v ∈ l, (s.threads v).priority ≤ (s.threads u).priority

/-! ## The invariant -/

structure Inv (s : SchedulerData τ) (l : List τ) : Prop where
  queued : s.Queued (s.level l)
  nodup : l.Nodup

variable {s s' s₀ : SchedulerData τ} {l as bs : List τ} {t x : τ} {p cpu : Nat}

omit [DecidableEq τ] in
theorem mem_level : t ∈ s.level l p ↔ t ∈ l ∧ (s.threads t).priority = p := by
  simp [level]

omit [DecidableEq τ] in
theorem level_append (p : Nat) : s.level (as ++ bs) p = s.level as p ++ s.level bs p :=
  List.filter_append ..

omit [DecidableEq τ] in
theorem level_cons_self (hx : (s.threads x).priority = p) : s.level (x :: l) p = x :: s.level l p :=
  List.filter_cons_of_pos (decide_eq_true hx)

omit [DecidableEq τ] in
theorem level_cons_of_ne (hx : (s.threads x).priority ≠ p) : s.level (x :: l) p = s.level l p := by
  simp [level, hx]

omit [DecidableEq τ] in
theorem level_congr (h : ∀ u, (s'.threads u).priority = (s.threads u).priority) (l : List τ) :
    s'.level l = s.level l := by
  funext p
  simp [level, h]

omit [DecidableEq τ] in
theorem Blank.inv (h : s.Blank) : s.Inv [] where
  queued :=
    { links := fun _ => trivial
      first := fun p => by rw [h.queues p]; rfl
      last := fun p => by rw [h.queues p]; rfl
      nodup := fun _ => .nil
      priority := fun _ _ ht => nomatch ht
      bitmap := fun p => by simp [h.bitmap, level] }
  nodup := .nil

theorem Inv.push (h : s.Inv l) (ht : s.Pushable l t) : (s.push t).Inv (l ++ [t]) where
  queued := by
    have hqueued := h.queued.push (fun p hmem => ht.out (mem_level.mp hmem).1) ht.next ht.priority
    have hlevel : Function.update (s.level l) (s.threads t).priority
        (s.level l (s.threads t).priority ++ [t]) = (s.push t).level (l ++ [t]) := by
      rw [level_congr (push_priority s t)]
      funext r
      rw [level_append]
      by_cases hr : (s.threads t).priority = r
      · subst hr
        rw [Function.update_self, level_cons_self rfl]
        rfl
      · rw [Function.update_of_ne (Ne.symm hr), level_cons_of_ne hr]
        exact (List.append_nil _).symm
    exact hlevel ▸ hqueued
  nodup := by
    rw [List.nodup_append_comm, List.singleton_append, List.nodup_cons]
    exact ⟨ht.out, h.nodup⟩

/-! ## One call -/

omit [DecidableEq τ] in
/-- The priority that `Pop` looks at is the highest. -/
theorem Inv.le_top (h : s.Inv l) (ht : t ∈ l) :
    (s.threads t).priority ≤ s.bitmap.toNat.log2 := by
  have hlevel : s.level l (s.threads t).priority ≠ [] :=
    List.ne_nil_of_mem (mem_level.mpr ⟨ht, rfl⟩)
  exact (h.queued.top (h.queued.bitmap_ne hlevel)).2 _ hlevel

omit [DecidableEq τ] in
/-- The first thread of a priority that may run on the core. -/
theorem exists_first (ht : t ∈ s.level l p) (hadmits : s.admits cpu t = true) :
    ∃ as x bs, l = as ++ x :: bs ∧ (s.threads x).priority = p ∧ s.admits cpu x = true ∧
      ∀ a ∈ as, (s.threads a).priority = p → s.admits cpu a = false := by
  obtain ⟨hmem, hprio⟩ := mem_level.mp ht
  have hsome : (l.find? fun u => (s.threads u).priority = p ∧ s.admits cpu u = true).isSome := by
    rw [List.find?_isSome]
    exact ⟨t, hmem, decide_eq_true ⟨hprio, hadmits⟩⟩
  obtain ⟨x, hfind⟩ := Option.isSome_iff_exists.mp hsome
  obtain ⟨hx, as, bs, hl, has⟩ := List.find?_eq_some_iff_append.mp hfind
  obtain ⟨hprio', hx⟩ := of_decide_eq_true hx
  refine ⟨as, x, bs, hl, hprio', hx, ?_⟩
  intro a ha hpa
  have hnot := has a ha
  simp only [hpa, true_and] at hnot
  simpa using hnot

section Pop

variable [Fintype τ]

/-- Some thread of the highest priority may run on the core: the best one is taken. -/
theorem Inv.pop_best (h : s.Inv l) (empty : Bool) (ht : t ∈ s.level l s.bitmap.toNat.log2)
    (hadmits : s.admits cpu t = true) :
    ∃ x s', s.pop cpu empty = (some x, s') ∧ s.best cpu l = some x ∧ s'.Inv (l.erase x) := by
  obtain ⟨as, x, bs, rfl, hprio, hx, has⟩ := exists_first ht hadmits
  have hnodup := List.nodup_cons.mp (List.nodup_middle.mp h.nodup)
  have hout : x ∉ as := fun hmem => hnodup.1 (List.mem_append_left _ hmem)
  have htop : s.level (as ++ x :: bs) s.bitmap.toNat.log2 =
      s.level as s.bitmap.toNat.log2 ++ s.level (x :: bs) s.bitmap.toNat.log2 := level_append _
  rw [level_cons_self hprio] at htop
  have hbefore : ∀ u ∈ s.level as s.bitmap.toNat.log2, s.admits cpu u = false := by
    intro u hu
    obtain ⟨hu, hpu⟩ := mem_level.mp hu
    exact has u hu hpu
  obtain ⟨s', hpop, hqueued, hpopped⟩ := h.queued.pop empty htop hbefore hx
  refine ⟨x, s', hpop, ?_, ?_⟩
  · unfold best
    rw [List.filter_append, List.filter_cons_of_pos hx]
    refine argmax_middle ?_ ?_
    · intro a ha
      obtain ⟨ha, hadm⟩ := List.mem_filter.mp ha
      rw [hprio]
      refine Nat.lt_of_le_of_ne (h.le_top (List.mem_append_left _ ha)) ?_
      intro hpa
      rw [has a ha hpa] at hadm
      cases hadm
    · intro b hb
      rw [hprio]
      exact h.le_top (List.mem_append_right _ (List.mem_cons_of_mem _ (List.mem_filter.mp hb).1))
  · rw [List.erase_append_right _ hout, List.erase_cons_head]
    refine ⟨?_, hnodup.2⟩
    have hlevel : Function.update (s.level (as ++ x :: bs)) s.bitmap.toNat.log2
        (s.level as s.bitmap.toNat.log2 ++ s.level bs s.bitmap.toNat.log2) =
          s'.level (as ++ bs) := by
      rw [level_congr fun u => (hpopped.same u).2.1]
      funext r
      rw [level_append]
      by_cases hr : (s.threads x).priority = r
      · rw [← hr, hprio, Function.update_self]
      · rw [Function.update_of_ne (by rw [← hprio]; exact Ne.symm hr), level_append,
          level_cons_of_ne hr]
    exact hlevel ▸ hqueued

theorem Inv.pop (h : s.Inv l) (cpu : Nat) (empty : Bool) :
    (s.pop cpu empty).2.Inv (remaining l (s.pop cpu empty).1) := by
  by_cases hany : ∃ t ∈ s.level l s.bitmap.toNat.log2, s.admits cpu t = true
  · obtain ⟨t, ht, hadmits⟩ := hany
    obtain ⟨x, s', hpop, -, hinv⟩ := h.pop_best empty ht hadmits
    rw [hpop]
    exact hinv
  · rw [h.queued.pop_none empty fun u hu => eq_false_of_ne_true fun hadm => hany ⟨u, hu, hadm⟩]
    exact h

theorem Run.inv (hblank : s₀.Blank) (h : Run s₀ s l) : s.Inv l := by
  induction h with
  | start => exact hblank.inv
  | push t _ ht ih => exact ih.push ht
  | pop cpu empty _ ih => exact ih.pop cpu empty

omit [DecidableEq τ] [Fintype τ] in
theorem best_eq_none : s.best cpu l = none ↔ ∀ t ∈ l, s.admits cpu t = false := by
  rw [best, List.argmax_eq_none, List.filter_eq_nil_iff]
  simp

/-- `Pop` picks the best thread if and only if the highest priority has a thread for the core, or
no priority has one. -/
theorem Run.picksBest_iff (hblank : s₀.Blank) (h : Run s₀ s l) (cpu : Nat) (empty : Bool) :
    s.PicksBest cpu empty l ↔ s.Servable cpu l := by
  have hinv := h.inv hblank
  by_cases hany : ∃ t ∈ s.level l s.bitmap.toNat.log2, s.admits cpu t = true
  · obtain ⟨t, ht, hadmits⟩ := hany
    obtain ⟨x, s', hpop, hbest, hinv'⟩ := hinv.pop_best empty ht hadmits
    refine iff_of_true ?_ ?_
    · unfold PicksBest
      rw [hpop, hbest]
      exact ⟨rfl, hinv'.queued⟩
    · intro _ _ _
      obtain ⟨hmem, hprio⟩ := mem_level.mp ht
      exact ⟨t, hmem, hadmits, fun v hv => by rw [hprio]; exact hinv.le_top hv⟩
  · have hnone : ∀ u ∈ s.level l s.bitmap.toNat.log2, s.admits cpu u = false :=
      fun u hu => eq_false_of_ne_true fun hadm => hany ⟨u, hu, hadm⟩
    unfold PicksBest
    rw [hinv.queued.pop_none empty hnone]
    constructor
    · rintro ⟨hbest, -⟩ t ht hadmits
      rw [best_eq_none.mp hbest.symm t ht] at hadmits
      cases hadmits
    · intro hserv
      have hbest : s.best cpu l = none := by
        refine best_eq_none.mpr fun t ht => eq_false_of_ne_true fun hadmits => ?_
        obtain ⟨u, hu, hadm, hmax⟩ := hserv t ht hadmits
        -- the highest priority has members, so that `u` is one of them
        have hlevel : s.level l (s.threads u).priority ≠ [] :=
          List.ne_nil_of_mem (mem_level.mpr ⟨hu, rfl⟩)
        obtain ⟨v, hv⟩ := List.exists_mem_of_ne_nil _
          (hinv.queued.top (hinv.queued.bitmap_ne hlevel)).1
        obtain ⟨hv, hprio⟩ := mem_level.mp hv
        have htop : (s.threads u).priority = s.bitmap.toNat.log2 :=
          Nat.le_antisymm (hinv.le_top hu) (hprio ▸ hmax v hv)
        exact hany ⟨u, mem_level.mpr ⟨hu, htop⟩, hadm⟩
      rw [hbest]
      exact ⟨rfl, hinv.queued⟩

end Pop

/-! Two threads: one for the second core, and one of a lower priority for the first core. -/

def twoThreads : SchedulerData Bool where
  cpuIndex := 0
  currentThread := true
  idleThread := true
  bitmap := 0#64
  queues _ := ⟨none, none⟩
  threads t := ⟨none, none, false, none, .blocked, if t then 5 else 3, if t then 2 else 1⟩

theorem twoThreads_blank : twoThreads.Blank := ⟨rfl, fun _ => rfl⟩

theorem twoThreads_first : Run twoThreads (twoThreads.push true) [true] :=
  Run.start.push true ⟨by simp, by decide, rfl, rfl⟩

/-- The second core gets its thread. -/
theorem Run.picksBest_iff_twoThreads : (twoThreads.push true).PicksBest 1 false [true] := by
  refine (Run.picksBest_iff twoThreads_blank twoThreads_first 1 false).mpr ?_
  intro t ht hadmits
  exact ⟨t, ht, hadmits, by decide +revert⟩

/-- The first core gets none, though one may run there. -/
theorem not_picksBest : ¬ ∀ (s₀ s : SchedulerData Bool) (l : List Bool), s₀.Blank → Run s₀ s l →
    ∀ cpu empty, s.PicksBest cpu empty l := by
  intro h
  have hrun : Run twoThreads ((twoThreads.push true).push false) [true, false] :=
    twoThreads_first.push false ⟨by simp, by decide, rfl, rfl⟩
  have hpop := (h _ _ _ twoThreads_blank hrun 0 false).1
  exact absurd hpop (by decide +kernel)

end SchedulerData

end Scheduler

end Beelzebub
