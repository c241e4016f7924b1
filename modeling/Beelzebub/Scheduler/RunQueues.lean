import Beelzebub.Scheduler.Queues

/-!
# Runs of pushes and pops

The queues of a core after any sequence of `Push` and `Pop`, with what other code does to the
threads in between: a thread may get another status and affinity at any time, and another
priority while it is in no queue.
-/

namespace Beelzebub.Scheduler.SchedulerData

variable {τ : Type} [DecidableEq τ]

/-- A core and, for each priority, the threads that were pushed and not popped, in the order in
which they were pushed. -/
inductive QueueRun [Fintype τ] : SchedulerData τ → (Nat → List τ) → Prop where
  | start {s : SchedulerData τ} (hbitmap : s.bitmap = 0#64)
      (hqueues : ∀ p, s.queues p = ⟨none, none⟩)
      (hlinks : ∀ t, s.next t = none ∧ s.previous t = none) : QueueRun s fun _ => []
  | change {s : SchedulerData τ} {q : Nat → List τ} {t : τ} {status : SchedulerStatus}
      {priority affinity : Nat} (hrun : QueueRun s q)
      (hqueued : (∃ p, t ∈ q p) → priority = (s.threads t).priority) :
      QueueRun (s.modify t fun d => { d with status, priority, affinity }) q
  | push {s : SchedulerData τ} {q : Nat → List τ} {t : τ} (hrun : QueueRun s q) (hout : ∀ p, t ∉ q p)
      (hprio : (s.threads t).priority < priorityLevels) :
      QueueRun (s.push t) (Function.update q (s.threads t).priority (q (s.threads t).priority ++ [t]))
  | pop {s s' : SchedulerData τ} {q : Nat → List τ} {cpu : Nat} {empty : Bool} {t : τ}
      (hrun : QueueRun s q) (hpop : s.pop cpu empty = (some t, s')) : QueueRun s' fun p => (q p).erase t
  | popNone {s s' : SchedulerData τ} {q : Nat → List τ} {cpu : Nat} {empty : Bool}
      (hrun : QueueRun s q) (hpop : s.pop cpu empty = (none, s')) : QueueRun s' q

/-- The members of the queues are linked in order and point back to their queue, and no other
thread has links. -/
structure Consistent (s : SchedulerData τ) (q : Nat → List τ) : Prop extends Queued s q where
  back : ∀ p, ∀ t ∈ q p, (s.threads t).queue = some p ∧ (s.threads t).scheduler = true
  idle : ∀ t, (∀ p, t ∉ q p) → s.next t = none ∧ s.previous t = none

variable {s s' : SchedulerData τ} {q : Nat → List τ} {t : τ} {p cpu : Nat}

theorem Consistent.push (h : s.Consistent q) (hout : ∀ p, t ∉ q p)
    (hprio : (s.threads t).priority < priorityLevels) :
    (s.push t).Consistent
      (Function.update q (s.threads t).priority (q (s.threads t).priority ++ [t])) := by
  have hmem : ∀ r u, u ∈ Function.update q (s.threads t).priority
      (q (s.threads t).priority ++ [t]) r ↔ u ∈ q r ∨ u = t ∧ r = (s.threads t).priority := by
    intro r u
    by_cases hr : r = (s.threads t).priority
    · subst hr
      simp
    · simp [hr]
  refine ⟨h.toQueued.push hout (h.idle t hout).1 hprio, ?_, ?_⟩
  · intro r u hu
    rw [push_threads]
    by_cases hut : u = t
    · subst hut
      rw [if_pos rfl]
      rcases (hmem r u).mp hu with hu | ⟨-, rfl⟩
      · exact absurd hu (hout r)
      · exact ⟨rfl, rfl⟩
    · rw [if_neg hut]
      have hold := h.back r u (((hmem r u).mp hu).resolve_right fun hu => hut hu.1)
      split
      · exact hold
      · exact hold
  · intro u hu
    have hut : u ≠ t := by
      rintro rfl
      exact hu _ ((hmem _ u).mpr (Or.inr ⟨rfl, rfl⟩))
    have hold : ∀ r, u ∉ q r := fun r hur => hu r ((hmem r u).mpr (Or.inl hur))
    have hlast : (s.queues (s.threads t).priority).last ≠ some u := by
      intro hl
      rw [h.last] at hl
      exact hold _ (List.mem_of_getLast? hl)
    rw [SchedulerData.next, previous, push_threads, if_neg hut, if_neg hlast]
    exact h.idle u hold

section Pop

variable [Fintype τ]

/-- `Pop` changes nothing but the links of the threads that stay. -/
theorem Queued.pop_back (h : s.Queued q) {xs ys : List τ} {x : τ} {empty : Bool}
    (hq : q s.bitmap.toNat.log2 = xs ++ x :: ys) (hxs : ∀ u ∈ xs, s.admits cpu u = false)
    (hx : s.admits cpu x = true) (hpop : s.pop cpu empty = (some t, s')) {u : τ} (hu : u ≠ x) :
    (s'.threads u).queue = (s.threads u).queue ∧
      (s'.threads u).scheduler = (s.threads u).scheduler := by
  have hne : s.bitmap ≠ 0#64 := h.bitmap_ne (p := s.bitmap.toNat.log2) (by simp [hq])
  obtain ⟨s₁, hdeq, htaken⟩ := h.dequeue empty hq hxs hx
  have hsame : (s₁.threads u).queue = (s.threads u).queue ∧
      (s₁.threads u).scheduler = (s.threads u).scheduler := by
    rw [htaken.threads, if_neg hu]
    exact ⟨rfl, rfl⟩
  unfold SchedulerData.pop at hpop
  rw [if_neg hne] at hpop
  dsimp only at hpop
  rw [hdeq] at hpop
  obtain ⟨-, rfl⟩ := Prod.mk.inj hpop
  rw [modify_threads, if_neg hu]
  split
  · exact hsame
  · exact hsame

theorem Consistent.pop (h : s.Consistent q) {empty : Bool}
    (hpop : s.pop cpu empty = (some t, s')) : s'.Consistent fun p => (q p).erase t := by
  generalize htop : s.bitmap.toNat.log2 = top
  have hfound : ∃ xs x ys, q top = xs ++ x :: ys ∧ (∀ u ∈ xs, s.admits cpu u = false) ∧
      s.admits cpu x = true := by
    cases hfind : (q top).find? (s.admits cpu) with
    | none =>
        rw [List.find?_eq_none] at hfind
        rw [← htop] at hfind
        rw [h.pop_none empty fun u hu => Bool.eq_false_iff.mpr (hfind u hu)] at hpop
        cases hpop
    | some x =>
        obtain ⟨hx, xs, ys, hq, hxs⟩ := List.find?_eq_some_iff_append.mp hfind
        exact ⟨xs, x, ys, hq, fun u hu => by simpa using hxs u hu, hx⟩
  obtain ⟨xs, x, ys, hq, hxs, hx⟩ := hfound
  rw [← htop] at hq
  have hback := fun u => h.toQueued.pop_back (u := u) hq hxs hx hpop
  obtain ⟨s₁, heq, hqueued, hpopped⟩ := h.toQueued.pop empty hq hxs hx
  rw [hpop] at heq
  obtain ⟨ht, rfl⟩ := Prod.mk.inj heq
  obtain rfl := Option.some.inj ht
  rw [htop] at hq hqueued
  have hnot : ∀ r, r ≠ top → t ∉ q r := by
    intro r hr hmem
    exact hr (h.disjoint (p := top) (by simp [hq]) hmem)
  have hrest : (fun p => (q p).erase t) = Function.update q top (xs ++ ys) := by
    funext r
    by_cases hr : r = top
    · subst hr
      have hout : t ∉ xs := fun hmem => by
        rw [hxs t hmem] at hx
        cases hx
      rw [Function.update_self, hq, List.erase_append_right _ hout, List.erase_cons_head]
    · rw [Function.update_of_ne hr, List.erase_of_not_mem (hnot r hr)]
  have hmem : ∀ r u, u ∈ (q r).erase t ↔ u ≠ t ∧ u ∈ q r := fun r u => (h.nodup r).mem_erase_iff
  rw [hrest]
  refine ⟨hqueued, ?_, ?_⟩
  · intro r u hu
    rw [← hrest, hmem] at hu
    obtain ⟨hqueue, hscheduler⟩ := hback u hu.1
    rw [hqueue, hscheduler]
    exact h.back r u hu.2
  · intro u hu
    by_cases hut : u = t
    · rw [hut]
      exact ⟨hpopped.next, hpopped.previous⟩
    · have hold : ∀ r, u ∉ q r := by
        intro r hur
        refine hu r ?_
        rw [← hrest, hmem]
        exact ⟨hut, hur⟩
      obtain ⟨hnext, hprev⟩ := hpopped.others u (hq ▸ hold top)
      rw [hnext, hprev]
      exact h.idle u hold

theorem Consistent.pop_none (h : s.Consistent q) {empty : Bool}
    (hpop : s.pop cpu empty = (none, s')) : s' = s := by
  cases hfind : (q s.bitmap.toNat.log2).find? (s.admits cpu) with
  | none =>
      rw [List.find?_eq_none] at hfind
      rw [h.toQueued.pop_none empty fun u hu => Bool.eq_false_iff.mpr (hfind u hu)] at hpop
      exact (Prod.mk.inj hpop).2.symm
  | some x =>
      obtain ⟨hx, xs, ys, hq, hxs⟩ := List.find?_eq_some_iff_append.mp hfind
      obtain ⟨s₁, heq, -⟩ :=
        h.toQueued.pop empty hq (fun u hu => by simpa using hxs u hu) hx
      rw [hpop] at heq
      cases heq

omit [Fintype τ] in
theorem Consistent.change (h : s.Consistent q) {status : SchedulerStatus} {priority affinity : Nat}
    (hqueued : (∃ p, t ∈ q p) → priority = (s.threads t).priority) :
    (s.modify t fun d => { d with status, priority, affinity }).Consistent q := by
  have hsame : ∀ u, ((s.modify t fun d => { d with status, priority, affinity }).threads u).next =
        s.next u ∧
      ((s.modify t fun d => { d with status, priority, affinity }).threads u).previous =
        s.previous u ∧
      ((s.modify t fun d => { d with status, priority, affinity }).threads u).queue =
        (s.threads u).queue ∧
      ((s.modify t fun d => { d with status, priority, affinity }).threads u).scheduler =
        (s.threads u).scheduler := by
    intro u
    rw [modify_threads]
    split
    · exact ⟨rfl, rfl, rfl, rfl⟩
    · exact ⟨rfl, rfl, rfl, rfl⟩
  refine ⟨⟨?_, h.first, h.last, h.nodup, ?_, h.bitmap⟩, ?_, ?_⟩
  · intro p
    exact (Linked.seg_congr (fun u _ => (hsame u).1) fun u _ => (hsame u).2.1).mpr (h.links p)
  · intro p u hu
    rw [modify_threads]
    by_cases hut : u = t
    · rw [if_pos hut]
      rw [hut] at hu
      show priority = p ∧ p < priorityLevels
      rw [hqueued ⟨p, hu⟩]
      exact h.priority p t hu
    · rw [if_neg hut]
      exact h.priority p u hu
  · intro p u hu
    rw [(hsame u).2.2.1, (hsame u).2.2.2]
    exact h.back p u hu
  · intro u hu
    exact ⟨(hsame u).1.trans (h.idle u hu).1, (hsame u).2.1.trans (h.idle u hu).2⟩

theorem QueueRun.consistent (h : QueueRun s q) : s.Consistent q := by
  induction h with
  | start hbitmap hqueues hlinks =>
      refine ⟨⟨fun _ => trivial, ?_, ?_, fun _ => List.nodup_nil, ?_, ?_⟩, ?_, fun t _ => hlinks t⟩
      · intro p
        rw [hqueues]
        rfl
      · intro p
        rw [hqueues]
        rfl
      · intro p t ht
        cases ht
      · intro p
        simp [hbitmap]
      · intro p t ht
        cases ht
  | change _ hqueued ih => exact ih.change hqueued
  | push _ hout hprio ih => exact ih.push hout hprio
  | pop _ hpop ih => exact ih.pop hpop
  | popNone _ hpop ih =>
      rw [ih.pop_none hpop]
      exact ih

/-- After every operation each queue is a doubly linked list of the threads that wait at its
priority, in the order in which they came, and the bitmap tells which of the queues have any. -/
theorem runQueues_sound (h : QueueRun s q) :
    s.Consistent q ∧ ∀ p, (s.queues p).first = none ↔ (s.queues p).last = none := by
  have hc := h.consistent
  refine ⟨hc, fun p => ?_⟩
  rw [hc.first, hc.last, List.head?_eq_none_iff, List.getLast?_eq_none_iff]

end Pop

/-- A core with three threads that no queue has. -/
def idleCore : SchedulerData (Fin 3) where
  cpuIndex := 0
  currentThread := 0
  idleThread := 0
  bitmap := 0#64
  queues _ := ⟨none, none⟩
  threads _ :=
    { next := none, previous := none, scheduler := false, queue := none, status := .unscheduled
      priority := 5, affinity := 1 }

theorem runQueues_sound_popped : ∃ s : SchedulerData (Fin 3),
    s.Consistent (fun p =>
      (Function.update (Function.update (fun _ => []) 5 [1]) 5 [1, 2] p).erase 1) ∧
      ∀ p, (s.queues p).first = none ↔ (s.queues p).last = none := by
  have hstart : QueueRun idleCore fun _ => [] := .start rfl (fun _ => rfl) fun _ => ⟨rfl, rfl⟩
  have hone := hstart.push (t := 1) (fun _ => List.not_mem_nil) (by decide)
  have hout : ∀ p, (2 : Fin 3) ∉ Function.update (fun _ => []) 5 [1] p := by
    intro p
    by_cases hp : p = 5
    · subst hp
      simp
    · simp [hp]
  have htwo := hone.push (t := 2) hout (by decide)
  have hpop : ((idleCore.push 1).push 2).pop 0 false =
      (some 1, (((idleCore.push 1).push 2).pop 0 false).2) :=
    Prod.ext (by decide +kernel) rfl
  exact ⟨_, runQueues_sound (htwo.pop hpop)⟩

end Beelzebub.Scheduler.SchedulerData
