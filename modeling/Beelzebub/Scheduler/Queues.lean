import Beelzebub.Lib.Linked
import Beelzebub.Lib.Word
import Mathlib.Data.Fintype.Card
import Mathlib.Data.Nat.Bitwise
import Mathlib.Data.Nat.Log

/-!
# The run queues of a core

The threads of one priority form a doubly linked list through their scheduling data, and a
bitmap tells which of the lists have members.  `Push` appends a thread to the list of its
priority.  `Pop` looks only at the highest priority that has members and takes the first
thread there that may run on the core.

The threads that exist are finitely many, which bounds the search through a list.
-/

namespace Beelzebub

inductive SchedulerStatus where
  | unscheduled
  | queued
  | executing
  | blocked
deriving DecidableEq

namespace Scheduler

def priorityLevels : Nat := 32
/-- `AllCpusMask`: a bit for each of the `MaximumCPUs`. -/
def allCpusMask : Nat := 2 ^ 512 - 1

/-- `ThreadSchedulerState`.  The one scheduler is there or not; a queue is named by its
priority. -/
structure ThreadSchedulerState (τ : Type) where
  next : Option τ
  previous : Option τ
  scheduler : Bool
  queue : Option Nat
  status : SchedulerStatus
  priority : Nat
  affinity : Nat

structure SchedulerQueue (τ : Type) where
  first : Option τ
  last : Option τ

/-- `SchedulerData`, and the scheduling data of the threads.  The bitmap is one word. -/
structure SchedulerData (τ : Type) where
  cpuIndex : Nat
  currentThread : τ
  idleThread : τ
  bitmap : BitVec 64
  queues : Nat → SchedulerQueue τ
  threads : τ → ThreadSchedulerState τ

namespace SchedulerData

variable {τ : Type} [DecidableEq τ]

def modify (t : τ) (f : ThreadSchedulerState τ → ThreadSchedulerState τ) (s : SchedulerData τ) :
    SchedulerData τ :=
  { s with threads := Function.update s.threads t (f (s.threads t)) }

def modifyLink (t : Option τ) (f : ThreadSchedulerState τ → ThreadSchedulerState τ)
    (s : SchedulerData τ) : SchedulerData τ :=
  match t with
  | none => s
  | some t => s.modify t f

def setQueue (p : Nat) (q : SchedulerQueue τ) (s : SchedulerData τ) : SchedulerData τ :=
  { s with queues := Function.update s.queues p q }

/-- The affinity of the thread has the bit of the core. -/
def admits (cpu : Nat) (s : SchedulerData τ) (t : τ) : Bool := (s.threads t).affinity.testBit cpu

/-! ## Appending -/

/-- `SchedulerQueue::Push`. -/
def enqueue (p : Nat) (t : τ) (s : SchedulerData τ) : SchedulerData τ :=
  let last := (s.queues p).last
  let s := s.modify t fun d => { d with previous := last }
  let s := s.modifyLink last fun d => { d with next := some t }
  let first := if last.isSome then (s.queues p).first else some t
  let s := s.setQueue p ⟨first, some t⟩
  s.modify t fun d => { d with queue := some p }

def push (t : τ) (s : SchedulerData τ) : SchedulerData τ :=
  let priority := (s.threads t).priority
  let s := s.enqueue priority t
  let s := { s with bitmap := s.bitmap ||| 1#64 <<< priority }
  s.modify t fun d => { d with scheduler := true, status := .queued }

/-! ## Taking -/

/-- The first thread from `cur` on that may run on the core. -/
def search (cpu : Nat) (s : SchedulerData τ) : Nat → Option τ → Option τ
  | 0, _ => none
  | _, none => none
  | fuel + 1, some cur =>
      if s.admits cpu cur then some cur else search cpu s fuel (s.threads cur).next

/-- The branch of `SchedulerQueue::Pop` for the first thread. -/
def takeFirst (p : Nat) (cur : τ) (s : SchedulerData τ) : SchedulerData τ :=
  let next := (s.threads cur).next
  let previous := (s.threads cur).previous
  let s := s.setQueue p ⟨next, if next.isSome then (s.queues p).last else none⟩
  let s := s.modifyLink next fun d => { d with previous }
  s.modify cur fun d => { d with queue := none }

/-- The branch of `SchedulerQueue::Pop` for another thread. -/
def takeLater (p : Nat) (cur : τ) (s : SchedulerData τ) : SchedulerData τ :=
  let next := (s.threads cur).next
  let previous := (s.threads cur).previous
  let queue := s.queues p
  let s := s.modifyLink previous fun d => { d with next }
  let s := s.modifyLink next fun d => { d with previous }
  let s := s.setQueue p { queue with last := if next.isSome then queue.last else previous }
  s.modify cur fun d => { d with queue := none }

/-- `SchedulerQueue::Pop`.  On an empty queue it leaves `empty` as it was. -/
def dequeue [Fintype τ] (p cpu : Nat) (empty : Bool) (s : SchedulerData τ) :
    Option τ × Bool × SchedulerData τ :=
  match (s.queues p).first with
  | none => (none, empty, s)
  | some cur =>
      if s.admits cpu cur then (some cur, (s.threads cur).next.isNone, s.takeFirst p cur)
      else
        match search cpu s (Fintype.card τ) (s.threads cur).next with
        | none => (none, false, s)
        | some cur => (some cur, false, s.takeLater p cur)

/-- `Pop`.  The variable that `dequeue` may leave unset starts as `empty`. -/
def pop [Fintype τ] (cpu : Nat) (empty : Bool) (s : SchedulerData τ) :
    Option τ × SchedulerData τ :=
  if s.bitmap = 0#64 then (none, s)
  else
    let priority := s.bitmap.toNat.log2
    let (ret, empty, s) := s.dequeue priority cpu empty
    let s := if empty then { s with bitmap := s.bitmap &&& ~~~(1#64 <<< priority) } else s
    match ret with
    | none => (none, s)
    | some t =>
        (some t, s.modify t fun d => { d with scheduler := false, next := none, previous := none })

/-! ## The lists of the queues -/

def next (s : SchedulerData τ) (t : τ) : Option τ := (s.threads t).next

def previous (s : SchedulerData τ) (t : τ) : Option τ := (s.threads t).previous

/-- The members of each queue, in order, and the bitmap over them. -/
structure Queued (s : SchedulerData τ) (q : Nat → List τ) : Prop where
  links : ∀ p, Linked.Seg s.next s.previous none (q p) none
  first : ∀ p, (s.queues p).first = (q p).head?
  last : ∀ p, (s.queues p).last = (q p).getLast?
  nodup : ∀ p, (q p).Nodup
  priority : ∀ p, ∀ t ∈ q p, (s.threads t).priority = p ∧ p < priorityLevels
  bitmap : ∀ p, s.bitmap.getLsbD p = true ↔ q p ≠ []

variable {s : SchedulerData τ} {q : Nat → List τ} {t : τ} {p cpu : Nat}

omit [DecidableEq τ] in
/-- A thread is in the queue of its priority only. -/
theorem Queued.disjoint (h : s.Queued q) (ht : t ∈ q p) {r : Nat} (hr : t ∈ q r) : r = p :=
  (h.priority r t hr).1.symm.trans (h.priority p t ht).1

/-! ### Appending -/

/-- The fields of all threads after `Push`. -/
theorem push_threads (s : SchedulerData τ) (t u : τ) :
    (s.push t).threads u =
      if u = t then
        { s.threads t with
          next := if (s.queues (s.threads t).priority).last = some t then some t
            else (s.threads t).next
          previous := (s.queues (s.threads t).priority).last
          queue := some (s.threads t).priority, scheduler := true, status := .queued }
      else if (s.queues (s.threads t).priority).last = some u then
        { s.threads u with next := some t }
      else s.threads u := by
  unfold push enqueue
  cases hlast : (s.queues (s.threads t).priority).last with
  | none =>
      by_cases hu : u = t
      · subst hu
        simp [modify, modifyLink, setQueue, hlast]
      · simp [modify, modifyLink, setQueue, hlast, hu]
  | some l =>
      by_cases hu : u = t
      · subst hu
        by_cases hl : l = u
        · subst hl
          simp [modify, modifyLink, setQueue, hlast]
        · simp [modify, modifyLink, setQueue, hlast, hl, Ne.symm hl]
      · by_cases hl : l = u
        · subst hl
          simp [modify, modifyLink, setQueue, hlast, hu]
        · simp [modify, modifyLink, setQueue, hlast, hu, hl, Ne.symm hl]

theorem push_status (s : SchedulerData τ) (t u : τ) :
    ((s.push t).threads u).status = if u = t then .queued else (s.threads u).status := by
  rw [push_threads]
  by_cases hu : u = t
  · rw [if_pos hu, if_pos hu]
  · rw [if_neg hu, if_neg hu]
    split
    · rfl
    · rfl

theorem push_priority (s : SchedulerData τ) (t u : τ) :
    ((s.push t).threads u).priority = (s.threads u).priority := by
  rw [push_threads]
  by_cases hu : u = t
  · rw [if_pos hu, hu]
  · rw [if_neg hu]
    split
    · rfl
    · rfl

theorem push_admits (s : SchedulerData τ) (t u : τ) : (s.push t).admits cpu u = s.admits cpu u := by
  rw [admits, push_threads]
  by_cases hu : u = t
  · rw [if_pos hu, hu]
    rfl
  · rw [if_neg hu]
    split
    · rfl
    · rfl

theorem push_queues (s : SchedulerData τ) (t : τ) :
    (s.push t).queues = Function.update s.queues (s.threads t).priority
      ⟨if (s.queues (s.threads t).priority).last.isSome
        then (s.queues (s.threads t).priority).first else some t, some t⟩ := by
  unfold push enqueue
  cases hlast : (s.queues (s.threads t).priority).last with
  | none => simp [modify, modifyLink, setQueue, hlast]
  | some l => simp [modify, modifyLink, setQueue, hlast]

theorem push_bitmap (s : SchedulerData τ) (t : τ) :
    (s.push t).bitmap = s.bitmap ||| 1#64 <<< (s.threads t).priority := by
  unfold push enqueue
  cases hlast : (s.queues (s.threads t).priority).last with
  | none => simp [modify, modifyLink, setQueue, hlast]
  | some l => simp [modify, modifyLink, setQueue, hlast]

/-- The bit of one priority is set. -/
theorem getLsbD_or_bit {b : BitVec 64} {k : Nat} (hp : p < 64) :
    (b ||| 1#64 <<< p).getLsbD k = true ↔ b.getLsbD k = true ∨ k = p := by
  rw [BitVec.getLsbD_or, Bool.or_eq_true]
  have hbit : (1#64 <<< p).getLsbD k = true ↔ k = p := by
    rw [BitVec.getLsbD_shiftLeft]
    simp
    omega
  rw [hbit]

/-- The bit of one priority is cleared. -/
theorem getLsbD_and_not_bit {b : BitVec 64} {k : Nat} (hp : p < 64) :
    (b &&& ~~~(1#64 <<< p)).getLsbD k = true ↔ b.getLsbD k = true ∧ k ≠ p := by
  rw [BitVec.getLsbD_and, Bool.and_eq_true]
  constructor
  · rintro ⟨hk, hnot⟩
    refine ⟨hk, ?_⟩
    rintro rfl
    rw [BitVec.getLsbD_not, BitVec.getLsbD_shiftLeft] at hnot
    simp at hnot
  · rintro ⟨hk, hne⟩
    refine ⟨hk, ?_⟩
    have hlt := BitVec.lt_of_getLsbD hk
    rw [BitVec.getLsbD_not, BitVec.getLsbD_shiftLeft]
    simp
    omega

/-- A thread that is in no queue comes last in the one of its priority. -/
theorem Queued.push (h : s.Queued q) (hout : ∀ p, t ∉ q p) (hnext : s.next t = none)
    (hprio : (s.threads t).priority < priorityLevels) :
    (s.push t).Queued (Function.update q (s.threads t).priority
      (q (s.threads t).priority ++ [t])) := by
  generalize hp : (s.threads t).priority = p at hprio ⊢
  have hlast := h.last p
  have hne : ∀ r, ∀ u ∈ q r, u ≠ t := by
    rintro r u hu rfl
    exact hout r hu
  have hself : (s.queues p).last ≠ some t := by
    intro hl
    rw [hlast] at hl
    exact hout p (List.mem_of_getLast? hl)
  have hnext_t : (s.push t).next t = none := by
    rw [SchedulerData.next, push_threads, if_pos rfl, hp, if_neg hself]
    exact hnext
  have hprev_t : (s.push t).previous t = (q p).getLast? := by
    rw [previous, push_threads, if_pos rfl, hp, ← hlast]
  have hnext_of : ∀ u, u ≠ t → (q p).getLast? ≠ some u → (s.push t).next u = s.next u := by
    intro u hu hl
    rw [SchedulerData.next, push_threads, if_neg hu, hp, hlast, if_neg hl]
    rfl
  have hnext_last : ∀ u, u ≠ t → (q p).getLast? = some u → (s.push t).next u = some t := by
    intro u hu hl
    rw [SchedulerData.next, push_threads, if_neg hu, hp, hlast, if_pos hl]
  have hprev_of : ∀ u, u ≠ t → (s.push t).previous u = s.previous u := by
    intro u hu
    rw [previous, push_threads, if_neg hu]
    split
    · rfl
    · rfl
  refine ⟨?_, ?_, ?_, ?_, ?_, ?_⟩
  · intro r
    by_cases hr : r = p
    · subst hr
      rw [Function.update_self]
      refine Linked.seg_append.mpr ⟨?_, hprev_t.trans (Option.or_none).symm, hnext_t, trivial⟩
      refine Linked.seg_relink_last (h.links r) (h.nodup r) ?_ ?_ ?_
      · exact fun u hu hl => hnext_of u (hne r u hu) hl
      · exact fun u hu => hnext_last u (hne r u (List.mem_of_getLast? hu)) hu
      · exact fun u hu => hprev_of u (hne r u hu)
    · rw [Function.update_of_ne hr]
      refine (Linked.seg_congr ?_ ?_).mpr (h.links r)
      · intro u hu
        refine hnext_of u (hne r u hu) ?_
        intro hl
        exact hr (h.disjoint (List.mem_of_getLast? hl) hu)
      · exact fun u hu => hprev_of u (hne r u hu)
  · intro r
    rw [push_queues, hp]
    by_cases hr : r = p
    · subst hr
      rw [Function.update_self, Function.update_self, hlast, h.first]
      cases q r with
      | nil => rfl
      | cons x l => simp [List.getLast?_cons]
    · rw [Function.update_of_ne hr, Function.update_of_ne hr, h.first]
  · intro r
    rw [push_queues, hp]
    by_cases hr : r = p
    · subst hr
      rw [Function.update_self, Function.update_self, List.getLast?_append]
      rfl
    · rw [Function.update_of_ne hr, Function.update_of_ne hr, h.last]
  · intro r
    by_cases hr : r = p
    · subst hr
      rw [Function.update_self, List.nodup_append_comm, List.singleton_append, List.nodup_cons]
      exact ⟨hout r, h.nodup r⟩
    · rw [Function.update_of_ne hr]
      exact h.nodup r
  · intro r u hu
    rw [push_priority]
    by_cases hr : r = p
    · subst hr
      rw [Function.update_self] at hu
      rcases List.mem_append.mp hu with hu | hu
      · exact h.priority r u hu
      · rw [List.mem_singleton.mp hu]
        exact ⟨hp, hprio⟩
    · rw [Function.update_of_ne hr] at hu
      exact h.priority r u hu
  · intro r
    rw [push_bitmap, hp, getLsbD_or_bit (by unfold priorityLevels at hprio; omega), h.bitmap]
    by_cases hr : r = p
    · subst hr
      rw [Function.update_self]
      simp
    · rw [Function.update_of_ne hr]
      simp [hr]

/-! ### Taking -/

omit [DecidableEq τ] in
theorem search_eq {start : Option τ} {l : List τ} (h : Linked.Chain s.next start l) {fuel : Nat}
    (hfuel : l.length ≤ fuel) : s.search cpu fuel start = l.find? (s.admits cpu) := by
  induction l generalizing start fuel with
  | nil =>
      rw [Linked.chain_nil.mp h]
      cases fuel with
      | zero => rfl
      | succ fuel => rfl
  | cons x l ih =>
      obtain ⟨rfl, hrest⟩ := Linked.chain_cons.mp h
      cases fuel with
      | zero => cases hfuel
      | succ fuel =>
          unfold search
          by_cases hx : s.admits cpu x = true
          · rw [if_pos hx, List.find?_cons_of_pos hx]
          · rw [if_neg hx, List.find?_cons_of_neg hx]
            exact ih hrest (Nat.le_of_succ_le_succ hfuel)

/-- The scheduling data of a thread after one was taken from between two others. -/
def bypass (xs ys : List τ) (u : τ) (d : ThreadSchedulerState τ) : ThreadSchedulerState τ :=
  { d with
    next := if xs.getLast? = some u then ys.head? else d.next
    previous := if ys.head? = some u then xs.getLast? else d.previous }

theorem bypass_next (xs ys : List τ) (u : τ) (d : ThreadSchedulerState τ) :
    (bypass xs ys u d).next = if xs.getLast? = some u then ys.head? else d.next := rfl

theorem bypass_previous (xs ys : List τ) (u : τ) (d : ThreadSchedulerState τ) :
    (bypass xs ys u d).previous = if ys.head? = some u then xs.getLast? else d.previous := rfl

theorem modify_threads (s : SchedulerData τ) (t u : τ)
    (f : ThreadSchedulerState τ → ThreadSchedulerState τ) :
    (s.modify t f).threads u = if u = t then f (s.threads u) else s.threads u := by
  by_cases hu : u = t
  · rw [if_pos hu, hu]
    exact Function.update_self ..
  · rw [if_neg hu]
    exact Function.update_of_ne hu ..

theorem modifyLink_threads (s : SchedulerData τ) (l : Option τ) (u : τ)
    (f : ThreadSchedulerState τ → ThreadSchedulerState τ) :
    (s.modifyLink l f).threads u = if l = some u then f (s.threads u) else s.threads u := by
  cases l with
  | none => rfl
  | some t =>
      show (s.modify t f).threads u = _
      rw [modify_threads]
      by_cases hu : u = t
      · rw [if_pos hu, if_pos (congrArg some hu.symm)]
      · rw [if_neg hu, if_neg fun ht => hu (Option.some.inj ht).symm]

/-- The data of the core, without that of the threads. -/
def bare (s : SchedulerData τ) : Nat × τ × τ × BitVec 64 × (Nat → SchedulerQueue τ) :=
  (s.cpuIndex, s.currentThread, s.idleThread, s.bitmap, s.queues)

theorem modifyLink_bare (s : SchedulerData τ) (l : Option τ)
    (f : ThreadSchedulerState τ → ThreadSchedulerState τ) : (s.modifyLink l f).bare = s.bare := by
  cases l with
  | none => rfl
  | some t => rfl

/-- What taking a thread from a queue changes. -/
structure Taken (p : Nat) (xs : List τ) (x : τ) (ys : List τ) (s s' : SchedulerData τ) : Prop where
  bare : s'.bare = (s.setQueue p ⟨(xs ++ ys).head?, (xs ++ ys).getLast?⟩).bare
  threads : ∀ u, s'.threads u =
    if u = x then { s.threads x with queue := none } else bypass xs ys u (s.threads u)

theorem Queued.takeFirst (h : s.Queued q) {x : τ} {ys : List τ} (hq : q p = x :: ys) :
    Taken p [] x ys s (s.takeFirst p x) := by
  have hseg := h.links p
  have hnd := h.nodup p
  have hlast := h.last p
  rw [hq] at hseg hnd hlast
  obtain ⟨hprev, hnext⟩ :=
    Linked.seg_middle (show Linked.Seg _ _ none ([] ++ x :: ys) none from hseg)
  rw [Option.or_none] at hprev hnext
  change (s.threads x).previous = none at hprev
  change (s.threads x).next = ys.head? at hnext
  unfold SchedulerData.takeFirst
  rw [hnext, hprev]
  refine ⟨?_, ?_⟩
  · show (modifyLink ys.head? _ _).bare = _
    rw [modifyLink_bare, hlast]
    cases ys with
    | nil => rfl
    | cons y ys =>
        rw [List.getLast?_cons_cons]
        rfl
  · intro u
    rw [modify_threads, modifyLink_threads]
    by_cases hu : u = x
    · subst hu
      rw [if_pos rfl, if_pos rfl, if_neg]
      · rfl
      · intro hhead
        exact (List.nodup_cons.mp hnd).1 (List.mem_of_mem_head? hhead)
    · rw [if_neg hu, if_neg hu]
      unfold bypass
      split
      · rfl
      · rfl

theorem Queued.takeLater (h : s.Queued q) {xs ys : List τ} {x : τ} (hq : q p = xs ++ x :: ys)
    (hxs : xs ≠ []) : Taken p xs x ys s (s.takeLater p x) := by
  have hseg := h.links p
  have hnd := h.nodup p
  have hfirst := h.first p
  have hlast := h.last p
  rw [hq] at hseg hnd hfirst hlast
  obtain ⟨hprev, hnext⟩ := Linked.seg_middle hseg
  rw [Option.or_none] at hprev hnext
  change (s.threads x).previous = xs.getLast? at hprev
  change (s.threads x).next = ys.head? at hnext
  obtain ⟨hx, -⟩ := List.nodup_cons.mp (List.nodup_middle.mp hnd)
  unfold SchedulerData.takeLater
  rw [hnext, hprev]
  refine ⟨?_, ?_⟩
  · show (setQueue p _ (modifyLink ys.head? _ _)).bare = _
    have hbare : ∀ {s₁ s₂ : SchedulerData τ} {e : SchedulerQueue τ}, s₁.bare = s₂.bare →
        (s₁.setQueue p e).bare = (s₂.setQueue p e).bare := by
      rintro ⟨⟩ ⟨⟩ e heq
      cases heq
      rfl
    rw [hbare ((modifyLink_bare ..).trans (modifyLink_bare ..)), hfirst, hlast]
    obtain ⟨w, xs, rfl⟩ := List.exists_cons_of_ne_nil hxs
    cases ys with
    | nil => simp
    | cons y ys => simp [List.getLast?_append, List.getLast?_cons]
  · intro u
    rw [modify_threads]
    show (if u = x then { (modifyLink _ _ _).threads u with queue := none }
      else (modifyLink _ _ _).threads u) = _
    rw [modifyLink_threads, modifyLink_threads]
    by_cases hu : u = x
    · subst hu
      have hl : xs.getLast? ≠ some u := fun hl =>
        hx (List.mem_append_left _ (List.mem_of_getLast? hl))
      have hr : ys.head? ≠ some u := fun hr =>
        hx (List.mem_append_right _ (List.mem_of_mem_head? hr))
      rw [if_pos rfl, if_pos rfl, if_neg hr, if_neg hl]
    · rw [if_neg hu, if_neg hu]
      unfold bypass
      split_ifs
      · rfl
      · rfl
      · rfl
      · rfl

section Search

variable [Fintype τ] {xs ys : List τ} {x : τ}

omit [DecidableEq τ] in
/-- The search through the rest of a queue sees all of it. -/
theorem Queued.search_tail (h : s.Queued q) {w : τ} {l : List τ} (hq : q p = w :: l) :
    s.search cpu (Fintype.card τ) (s.threads w).next = l.find? (s.admits cpu) := by
  have hchain := (h.links p).chain
  have hnd := h.nodup p
  rw [hq] at hchain hnd
  refine search_eq hchain.2 ?_
  exact (List.nodup_cons.mp hnd).2.length_le_card

/-- The first thread of the queue that may run is taken out of it. -/
theorem Queued.dequeue (h : s.Queued q) (empty : Bool) (hq : q p = xs ++ x :: ys)
    (hxs : ∀ u ∈ xs, s.admits cpu u = false) (hx : s.admits cpu x = true) :
    ∃ s', s.dequeue p cpu empty = (some x, (xs ++ ys).isEmpty, s') ∧ Taken p xs x ys s s' := by
  unfold SchedulerData.dequeue
  have hfirst := h.first p
  rw [hq] at hfirst
  cases xs with
  | nil =>
      have hnext := (Linked.seg_middle (hq ▸ h.links p)).2
      rw [hfirst]
      show ∃ s', (if s.admits cpu x then _ else _) = _ ∧ _
      rw [if_pos hx]
      refine ⟨_, ?_, h.takeFirst hq⟩
      rw [show (s.threads x).next = _ from hnext]
      cases ys with
      | nil => rfl
      | cons y ys => rfl
  | cons w xs =>
      have hfind : (xs ++ x :: ys).find? (s.admits cpu) = some x := by
        rw [List.find?_eq_some_iff_append]
        refine ⟨hx, xs, ys, rfl, ?_⟩
        intro u hu
        rw [hxs u (List.mem_cons_of_mem _ hu)]
        rfl
      rw [hfirst]
      show ∃ s', (if s.admits cpu w then _ else _) = _ ∧ _
      rw [if_neg (by rw [hxs w List.mem_cons_self]; exact Bool.false_ne_true),
        h.search_tail (l := xs ++ x :: ys) hq, hfind]
      exact ⟨_, rfl, h.takeLater hq (List.cons_ne_nil _ _)⟩

theorem Queued.dequeue_none (h : s.Queued q) (empty : Bool) (hq : q p ≠ [])
    (hall : ∀ u ∈ q p, s.admits cpu u = false) : s.dequeue p cpu empty = (none, false, s) := by
  unfold SchedulerData.dequeue
  obtain ⟨w, l, hwl⟩ := List.exists_cons_of_ne_nil hq
  have hfirst := h.first p
  rw [hwl] at hfirst hall
  have hfind : l.find? (s.admits cpu) = none := by
    rw [List.find?_eq_none]
    intro u hu
    rw [hall u (List.mem_cons_of_mem _ hu)]
    exact Bool.false_ne_true
  rw [hfirst]
  show (if s.admits cpu w then _ else _) = _
  rw [if_neg (by rw [hall w List.mem_cons_self]; exact Bool.false_ne_true), h.search_tail hwl, hfind]

end Search

omit [DecidableEq τ] in
/-- The bitmap names the highest priority that has members. -/
theorem Queued.top (h : s.Queued q) (hne : s.bitmap ≠ 0#64) :
    q s.bitmap.toNat.log2 ≠ [] ∧ ∀ r, q r ≠ [] → r ≤ s.bitmap.toNat.log2 := by
  have hne' : s.bitmap.toNat ≠ 0 := by
    intro hzero
    exact hne (BitVec.eq_of_toNat_eq hzero)
  refine ⟨?_, ?_⟩
  · rw [← h.bitmap, BitVec.getLsbD]
    exact Nat.testBit_log2 hne'
  · intro r hr
    rw [← h.bitmap, BitVec.getLsbD] at hr
    exact (Nat.le_log2 hne').mpr (Nat.ge_two_pow_of_testBit hr)

omit [DecidableEq τ] in
theorem Queued.bitmap_ne (h : s.Queued q) (hq : q p ≠ []) : s.bitmap ≠ 0#64 := by
  intro hzero
  have hbit := (h.bitmap p).mpr hq
  rw [hzero, BitVec.getLsbD_zero] at hbit
  cases hbit

/-- What taking a thread leaves of the data of all threads. -/
theorem Taken.same {xs ys : List τ} {x : τ} {s' : SchedulerData τ} (h : Taken p xs x ys s s') (u : τ) :
    (s'.threads u).status = (s.threads u).status ∧
      (s'.threads u).priority = (s.threads u).priority ∧
      (s'.threads u).affinity = (s.threads u).affinity := by
  rw [h.threads u]
  by_cases hu : u = x
  · rw [if_pos hu, hu]
    exact ⟨rfl, rfl, rfl⟩
  · rw [if_neg hu]
    exact ⟨rfl, rfl, rfl⟩

/-- The queues without the thread that was taken. -/
theorem Queued.taken (h : s.Queued q) {xs ys : List τ} {x : τ} (hq : q p = xs ++ x :: ys)
    {s₁ : SchedulerData τ} (htaken : Taken p xs x ys s s₁) {b : BitVec 64}
    (hb : ∀ r, b.getLsbD r = true ↔ Function.update q p (xs ++ ys) r ≠ [])
    (threads : τ → ThreadSchedulerState τ) (hsame : ∀ u, u ≠ x → threads u = s₁.threads u) :
    { s₁ with bitmap := b, threads }.Queued (Function.update q p (xs ++ ys)) := by
  have hseg := h.links p
  have hnd := h.nodup p
  rw [hq] at hseg hnd
  obtain ⟨hx, hrest⟩ := List.nodup_cons.mp (List.nodup_middle.mp hnd)
  have hqueues : s₁.queues = Function.update s.queues p ⟨(xs ++ ys).head?, (xs ++ ys).getLast?⟩ :=
    congrArg (fun d => d.2.2.2.2) htaken.bare
  have hne : ∀ u ∈ xs ++ ys, u ≠ x := by
    rintro u hu rfl
    exact hx hu
  have hthreads : ∀ u, u ≠ x → threads u = bypass xs ys u (s.threads u) := by
    intro u hu
    rw [hsame u hu, htaken.threads, if_neg hu]
  have hdisj : ∀ u ∈ xs, u ∉ ys := fun u hu hu' => (List.nodup_append.mp hrest).2.2 u hu u hu' rfl
  refine ⟨?_, ?_, ?_, ?_, ?_, hb⟩
  · intro r
    by_cases hr : r = p
    · subst hr
      rw [Function.update_self]
      obtain ⟨hprev, hnext⟩ := Linked.seg_middle hseg
      rw [Option.or_none] at hprev hnext
      refine Linked.seg_remove hseg hnd ?_ ?_ ?_ ?_ ?_ ?_
      · intro u hu hl
        show (threads u).next = _
        rw [hthreads u (hne u (List.mem_append_left _ hu)), bypass_next, if_neg hl]
        rfl
      · intro u hu
        show (threads u).next = _
        rw [hthreads u (hne u (List.mem_append_left _ (List.mem_of_getLast? hu))), bypass_next,
          if_pos (show xs.getLast? = some u from hu), hnext]
      · intro u hu
        show (threads u).previous = _
        rw [hthreads u (hne u (List.mem_append_left _ hu)), bypass_previous, if_neg]
        · rfl
        · exact fun hl => hdisj u hu (List.mem_of_mem_head? hl)
      · intro u hu
        show (threads u).next = _
        rw [hthreads u (hne u (List.mem_append_right _ hu)), bypass_next, if_neg]
        · rfl
        · exact fun hl => hdisj u (List.mem_of_getLast? hl) hu
      · intro u hu hl
        show (threads u).previous = _
        rw [hthreads u (hne u (List.mem_append_right _ hu)), bypass_previous, if_neg hl]
        rfl
      · intro u hu
        show (threads u).previous = _
        rw [hthreads u (hne u (List.mem_append_right _ (List.mem_of_mem_head? hu))),
          bypass_previous, if_pos (show ys.head? = some u from hu), hprev]
    · rw [Function.update_of_ne hr]
      have hout : ∀ u ∈ q r, u ≠ x ∧ u ∉ xs ∧ u ∉ ys := by
        intro u hu
        have hnot : u ∉ xs ++ x :: ys := by
          rw [← hq]
          exact fun hmem => hr (h.disjoint hmem hu)
        rw [List.mem_append, List.mem_cons, not_or, not_or] at hnot
        exact ⟨hnot.2.1, hnot.1, hnot.2.2⟩
      refine (Linked.seg_congr ?_ ?_).mpr (h.links r)
      · intro u hu
        obtain ⟨hux, huxs, -⟩ := hout u hu
        show (threads u).next = _
        rw [hthreads u hux, bypass_next, if_neg fun hl => huxs (List.mem_of_getLast? hl)]
        rfl
      · intro u hu
        obtain ⟨hux, -, huys⟩ := hout u hu
        show (threads u).previous = _
        rw [hthreads u hux, bypass_previous, if_neg]
        · rfl
        · exact fun hl => huys (List.mem_of_mem_head? hl)
  · intro r
    show (s₁.queues r).first = _
    rw [hqueues]
    by_cases hr : r = p
    · rw [hr, Function.update_self, Function.update_self]
    · rw [Function.update_of_ne hr, Function.update_of_ne hr, h.first]
  · intro r
    show (s₁.queues r).last = _
    rw [hqueues]
    by_cases hr : r = p
    · rw [hr, Function.update_self, Function.update_self]
    · rw [Function.update_of_ne hr, Function.update_of_ne hr, h.last]
  · intro r
    by_cases hr : r = p
    · rw [hr, Function.update_self]
      exact hrest
    · rw [Function.update_of_ne hr]
      exact h.nodup r
  · intro r u hu
    have hmem : u ∈ q r ∧ u ≠ x := by
      by_cases hr : r = p
      · subst hr
        rw [Function.update_self] at hu
        refine ⟨?_, hne u hu⟩
        rw [hq]
        exact List.perm_middle.mem_iff.mpr (List.mem_cons_of_mem _ hu)
      · rw [Function.update_of_ne hr] at hu
        refine ⟨hu, ?_⟩
        rintro rfl
        exact hr (h.disjoint (show u ∈ q p by simp [hq]) hu)
    show (threads u).priority = r ∧ r < priorityLevels
    rw [hsame u hmem.2, (htaken.same u).2.1]
    exact h.priority r u hmem.1

/-- What `Pop` does when it finds a thread. -/
structure Popped (l : List τ) (x : τ) (s s' : SchedulerData τ) : Prop where
  core : s'.cpuIndex = s.cpuIndex ∧ s'.currentThread = s.currentThread ∧
    s'.idleThread = s.idleThread
  next : s'.next x = none
  previous : s'.previous x = none
  same : ∀ u, (s'.threads u).status = (s.threads u).status ∧
    (s'.threads u).priority = (s.threads u).priority ∧
    (s'.threads u).affinity = (s.threads u).affinity
  others : ∀ u ∉ l, s'.next u = s.next u ∧ s'.previous u = s.previous u

/-- The first thread of the highest priority that may run on the core is taken. -/
theorem Queued.pop [Fintype τ] (h : s.Queued q) {xs ys : List τ} {x : τ} (empty : Bool)
    (hq : q s.bitmap.toNat.log2 = xs ++ x :: ys) (hxs : ∀ u ∈ xs, s.admits cpu u = false)
    (hx : s.admits cpu x = true) :
    ∃ s', s.pop cpu empty = (some x, s') ∧
      s'.Queued (Function.update q s.bitmap.toNat.log2 (xs ++ ys)) ∧
        Popped (xs ++ x :: ys) x s s' := by
  have hne : s.bitmap ≠ 0#64 := h.bitmap_ne (p := s.bitmap.toNat.log2) (by simp [hq])
  have hlt : s.bitmap.toNat.log2 < 64 := by
    have hbit := (h.bitmap s.bitmap.toNat.log2).mpr (by simp [hq])
    exact BitVec.lt_of_getLsbD hbit
  obtain ⟨s₁, hdeq, htaken⟩ := h.dequeue empty hq hxs hx
  have hbare := htaken.bare
  have hbitmap : s₁.bitmap = s.bitmap := congrArg (fun d => d.2.2.2.1) hbare
  unfold SchedulerData.pop
  rw [if_neg hne]
  dsimp only
  rw [hdeq]
  generalize s.bitmap.toNat.log2 = p at hq hlt htaken hbare ⊢
  refine ⟨_, rfl, ?_, ?_⟩
  · have hb : ∀ r, (if (xs ++ ys).isEmpty then s.bitmap &&& ~~~(1#64 <<< p)
        else s.bitmap).getLsbD r = true ↔ Function.update q p (xs ++ ys) r ≠ [] := by
      intro r
      by_cases hnil : xs ++ ys = []
      · rw [if_pos (List.isEmpty_iff.mpr hnil), getLsbD_and_not_bit hlt, h.bitmap]
        by_cases hr : r = p
        · subst hr
          simp [hnil]
        · simp [hr]
      · rw [if_neg (by rwa [List.isEmpty_iff]), h.bitmap]
        by_cases hr : r = p
        · subst hr
          rw [Function.update_self]
          exact ⟨fun _ => hnil, fun _ => by simp [hq]⟩
        · rw [Function.update_of_ne hr]
    have hqueued := h.taken hq htaken hb
      (Function.update s₁.threads x
        { s₁.threads x with scheduler := false, next := none, previous := none })
      (fun u hu => Function.update_of_ne hu ..)
    cases hcase : (xs ++ ys).isEmpty with
    | false =>
        rw [hcase, if_neg Bool.false_ne_true, ← hbitmap] at hqueued
        exact hqueued
    | true =>
        rw [hcase, if_pos rfl, ← hbitmap] at hqueued
        exact hqueued
  · have hcore : ∀ s₂ : SchedulerData τ, s₂.threads = s₁.threads → s₂.cpuIndex = s₁.cpuIndex →
        s₂.currentThread = s₁.currentThread → s₂.idleThread = s₁.idleThread →
        Popped (xs ++ x :: ys) x s (s₂.modify x fun d =>
          { d with scheduler := false, next := none, previous := none }) := by
      intro s₂ hthreads h1 h2 h3
      refine ⟨⟨?_, ?_, ?_⟩, ?_, ?_, ?_, ?_⟩
      · exact h1.trans (congrArg (fun d => d.1) hbare)
      · exact h2.trans (congrArg (fun d => d.2.1) hbare)
      · exact h3.trans (congrArg (fun d => d.2.2.1) hbare)
      · rw [SchedulerData.next, modify_threads, if_pos rfl]
      · rw [SchedulerData.previous, modify_threads, if_pos rfl]
      · intro u
        rw [modify_threads, hthreads]
        split
        · exact htaken.same u
        · exact htaken.same u
      · intro u hu
        rw [List.mem_append, List.mem_cons, not_or, not_or] at hu
        obtain ⟨huxs, hux, huys⟩ := hu
        rw [SchedulerData.next, SchedulerData.previous, modify_threads, if_neg hux, hthreads,
          htaken.threads, if_neg hux, bypass_next, bypass_previous, if_neg, if_neg]
        · exact ⟨rfl, rfl⟩
        · exact fun hl => huys (List.mem_of_mem_head? hl)
        · exact fun hl => huxs (List.mem_of_getLast? hl)
    cases (xs ++ ys).isEmpty with
    | false => exact hcore s₁ rfl rfl rfl rfl
    | true => exact hcore { s₁ with bitmap := s₁.bitmap &&& ~~~(1#64 <<< p) } rfl rfl rfl rfl

/-- No thread of the highest priority may run on the core, and nothing is taken. -/
theorem Queued.pop_none [Fintype τ] (h : s.Queued q) (empty : Bool)
    (hall : ∀ u ∈ q s.bitmap.toNat.log2, s.admits cpu u = false) :
    s.pop cpu empty = (none, s) := by
  unfold SchedulerData.pop
  by_cases hne : s.bitmap = 0#64
  · rw [if_pos hne]
  · rw [if_neg hne]
    dsimp only
    rw [h.dequeue_none empty (h.top hne).1 hall]
    rfl

end SchedulerData

end Scheduler

end Beelzebub
