import Beelzebub.Scheduler.Queues

/-!
# Ticks of the scheduler

On a tick the current thread goes back to its queue and the next one is taken.  When the
queues offer none, which is when no thread of the highest priority may run on the core, the
tick falls back to the idle thread without taking it from its queue.  Initialisation makes
the idle thread the current one and leaves it unscheduled until the first tick.
-/

namespace Beelzebub

namespace Scheduler

variable {τ : Type} [DecidableEq τ] [Fintype τ]

/-! ## The code -/

/-- The scheduler of a core, and which threads are in its care: the idle thread and the
enrolled ones. -/
structure Machine (τ : Type) where
  data : SchedulerData τ
  enrolled : τ → Bool

namespace SchedulerData

/-- `GetNext`, where the rings of cores have one element. -/
def getNext (empty : Bool) (s : SchedulerData τ) : τ × SchedulerData τ :=
  match s.pop s.cpuIndex empty with
  | (some ret, s) => (ret, s)
  | (none, s) => (s.idleThread, s)

/-- The core goes on with this thread. -/
def switchTo (nextThread : τ) (s : SchedulerData τ) : SchedulerData τ :=
  { s.modify nextThread fun d => { d with status := .executing } with currentThread := nextThread }

def schedulerTick (postpone empty : Bool) (s : SchedulerData τ) : SchedulerData τ :=
  if postpone then s
  else
    let s := s.push s.currentThread
    let (nextThread, s) := s.getNext empty
    s.switchTo nextThread

/-- A thread without affinity may run everywhere. -/
def prepare (t : τ) (s : SchedulerData τ) : SchedulerData τ :=
  if (s.threads t).affinity = 0 then s.modify t fun d => { d with affinity := allCpusMask } else s

def enroll (t : τ) (s : SchedulerData τ) : SchedulerData τ := (s.prepare t).push t

end SchedulerData

/-- `Scheduler::Initialize`, with `idle` as the thread of the core. -/
def init (cpu : Nat) (idle : τ) (threads : τ → ThreadSchedulerState τ) : Machine τ where
  data :=
    { cpuIndex := cpu
      currentThread := idle
      idleThread := idle
      bitmap := 0#64
      queues _ := ⟨none, none⟩
      threads := Function.update threads idle
        { threads idle with affinity := (threads idle).affinity ||| 1 <<< cpu } }
  enrolled t := t = idle

/-- Threads that no scheduler has seen: their scheduling data is blank but for priority and
affinity, or they are blocked. -/
structure Fresh (cpu : Nat) (idle : τ) (threads : τ → ThreadSchedulerState τ) : Prop where
  cpu : cpu < 512
  idle : (threads idle).status = .unscheduled
  links : ∀ t, (threads t).next = none ∧ (threads t).previous = none
  status : ∀ t, (threads t).status = .unscheduled ∨ (threads t).status = .blocked
  priority : ∀ t, (threads t).priority < priorityLevels

/-- A call of `Enroll`, or a tick; a tick may be postponed. -/
inductive Action (τ : Type) where
  | enroll (t : τ)
  | tick (postpone empty : Bool)

namespace Machine

def perform (m : Machine τ) : Action τ → Machine τ
  | .enroll t => ⟨m.data.enroll t, Function.update m.enrolled t true⟩
  | .tick postpone empty => ⟨m.data.schedulerTick postpone empty, m.enrolled⟩

/-- What `Enroll` asserts. -/
def Enabled (m : Machine τ) : Action τ → Prop
  | .enroll t =>
      (m.data.threads t).status = .unscheduled ∨ (m.data.threads t).status = .blocked
  | .tick _ _ => True

/-- The states that steps of some kind lead to. -/
inductive Reachable (kind : Machine τ → Action τ → Prop) (m₀ : Machine τ) : Machine τ → Prop
  | start : Reachable kind m₀ m₀
  | step {m : Machine τ} (a : Action τ) : Reachable kind m₀ m → m.Enabled a → kind m a →
      Reachable kind m₀ (m.perform a)

/-! ## What is asked -/

/-- Following the links of a queue leads to the thread. -/
def InQueue (m : Machine τ) (p : Nat) (t : τ) : Prop :=
  ∃ l, Linked.Chain m.data.next (m.data.queues p).first l ∧ t ∈ l

/-- The thread is current or in one queue, not both, and its status says which. -/
def Placed (m : Machine τ) (t : τ) : Prop :=
  (t = m.data.currentThread ∧ (∀ p, ¬ m.InQueue p t) ∧
    (m.data.threads t).status = .executing) ∨
  (t ≠ m.data.currentThread ∧ (∃! p, m.InQueue p t) ∧ (m.data.threads t).status = .queued)

/-- The thread that the step pushes has no links. -/
def PushesLoose (m : Machine τ) : Action τ → Prop
  | .enroll t => m.data.next t = none ∧ m.data.previous t = none
  | .tick true _ => True
  | .tick false _ =>
      m.data.next m.data.currentThread = none ∧ m.data.previous m.data.currentThread = none

def Sound (m : Machine τ) (a : Action τ) : Prop :=
  m.PushesLoose a ∧ ∀ t, (m.perform a).enrolled t = true → (m.perform a).Placed t

/-! ## The condition -/

/-- Among the threads of the highest priority, one may run on the core. -/
def Runnable (m : Machine τ) : Prop :=
  ∃ t, m.enrolled t = true ∧ m.data.admits m.data.cpuIndex t = true ∧
    ∀ u, m.enrolled u = true → (m.data.threads u).priority ≤ (m.data.threads t).priority

/-- A tick finds a thread, and everything else comes after the first tick. -/
def Fit (m : Machine τ) : Action τ → Prop
  | .enroll _ => (m.data.threads m.data.currentThread).status = .executing
  | .tick true _ => (m.data.threads m.data.currentThread).status = .executing
  | .tick false _ => m.Runnable

/-! ## The invariant -/

/-- Every thread of the core but the current one is in its queue. -/
structure Inv (m : Machine τ) (q : Nat → List τ) : Prop where
  queued : m.data.Queued q
  member : ∀ p, ∀ t ∈ q p, m.enrolled t = true ∧ t ≠ m.data.currentThread ∧
    (m.data.threads t).status = .queued
  total : ∀ t, m.enrolled t = true → t ≠ m.data.currentThread →
    t ∈ q (m.data.threads t).priority
  current : m.enrolled m.data.currentThread = true
  loose : ∀ t, m.enrolled t = false ∨ t = m.data.currentThread →
    m.data.next t = none ∧ m.data.previous t = none
  idle : m.enrolled m.data.idleThread = true
  priority : ∀ t, (m.data.threads t).priority < priorityLevels

variable {m : Machine τ} {q : Nat → List τ} {t : τ} {p : Nat}

omit [DecidableEq τ] [Fintype τ] in
theorem inQueue_iff (h : m.data.Queued q) : m.InQueue p t ↔ t ∈ q p := by
  have hchain : Linked.Chain m.data.next (m.data.queues p).first (q p) := by
    rw [h.first]
    exact (h.links p).chain
  constructor
  · rintro ⟨l, hl, ht⟩
    rw [hl.unique hchain] at ht
    exact ht
  · intro ht
    exact ⟨q p, hchain, ht⟩

omit [DecidableEq τ] [Fintype τ] in
/-- With the status of the current thread, every thread is placed. -/
theorem Inv.placed (h : m.Inv q)
    (hexec : (m.data.threads m.data.currentThread).status = .executing)
    (ht : m.enrolled t = true) : m.Placed t := by
  by_cases hcur : t = m.data.currentThread
  · refine Or.inl ⟨hcur, ?_, ?_⟩
    · intro p hp
      exact (h.member p t ((inQueue_iff h.queued).mp hp)).2.1 hcur
    · rw [hcur]
      exact hexec
  · have hmem := h.total t ht hcur
    refine Or.inr ⟨hcur, ⟨_, (inQueue_iff h.queued).mpr hmem, ?_⟩, (h.member _ t hmem).2.2⟩
    intro p hp
    exact h.queued.disjoint hmem ((inQueue_iff h.queued).mp hp)

omit [DecidableEq τ] [Fintype τ] in
/-- A thread that is current is placed only while it executes. -/
theorem Placed.executing (h : m.Placed m.data.currentThread) :
    (m.data.threads m.data.currentThread).status = .executing := by
  rcases h with ⟨-, -, hexec⟩ | ⟨hne, -⟩
  · exact hexec
  · exact absurd rfl hne

/-! ### Pushing -/

omit [DecidableEq τ] [Fintype τ] in
theorem Inv.out (h : m.Inv q) (ht : m.enrolled t = false ∨ t = m.data.currentThread) (p : Nat) :
    t ∉ q p := by
  intro hmem
  obtain ⟨henr, hne, -⟩ := h.member p t hmem
  rcases ht with ht | ht
  · rw [ht] at henr
    cases henr
  · exact hne ht

omit [Fintype τ] in
/-- The links of a thread in no queue do not change when another one is pushed. -/
theorem push_links {s : SchedulerData τ} (h : s.Queued q) {u : τ} (hu : u ≠ t)
    (hout : ∀ p, u ∉ q p) :
    (s.push t).next u = s.next u ∧ (s.push t).previous u = s.previous u := by
  have hlast : (s.queues (s.threads t).priority).last ≠ some u := by
    rw [h.last]
    exact fun hl => hout _ (List.mem_of_getLast? hl)
  rw [SchedulerData.next, SchedulerData.previous, SchedulerData.push_threads, if_neg hu,
    if_neg hlast]
  exact ⟨rfl, rfl⟩

omit [DecidableEq τ] [Fintype τ] in
theorem mem_update_push {s : SchedulerData τ} {u : τ} :
    u ∈ Function.update q (s.threads t).priority (q (s.threads t).priority ++ [t]) p ↔
      u ∈ q p ∨ u = t ∧ p = (s.threads t).priority := by
  by_cases hp : p = (s.threads t).priority
  · subst hp
    rw [Function.update_self, List.mem_append, List.mem_singleton]
    simp
  · rw [Function.update_of_ne hp]
    simp [hp]

omit [Fintype τ] in
theorem push_bare (s : SchedulerData τ) (t : τ) :
    (s.push t).cpuIndex = s.cpuIndex ∧ (s.push t).currentThread = s.currentThread ∧
      (s.push t).idleThread = s.idleThread := by
  unfold SchedulerData.push SchedulerData.enqueue
  cases hlast : (s.queues (s.threads t).priority).last with
  | none => simp [SchedulerData.modify, SchedulerData.modifyLink, SchedulerData.setQueue, hlast]
  | some l => simp [SchedulerData.modify, SchedulerData.modifyLink, SchedulerData.setQueue, hlast]

omit [Fintype τ] in
/-- The queues do not depend on the status or the affinity of a thread. -/
theorem queued_modify {s : SchedulerData τ} (h : s.Queued q)
    {f : ThreadSchedulerState τ → ThreadSchedulerState τ}
    (hf : ∀ d, (f d).next = d.next ∧ (f d).previous = d.previous ∧ (f d).priority = d.priority) :
    (s.modify t f).Queued q := by
  have hsame : ∀ u, (s.modify t f).next u = s.next u ∧ (s.modify t f).previous u = s.previous u ∧
      ((s.modify t f).threads u).priority = (s.threads u).priority := by
    intro u
    rw [SchedulerData.next, SchedulerData.previous, SchedulerData.modify_threads]
    split
    · exact hf _
    · exact ⟨rfl, rfl, rfl⟩
  refine ⟨?_, h.first, h.last, h.nodup, ?_, h.bitmap⟩
  · intro p
    exact (Linked.seg_congr (fun u _ => (hsame u).1) (fun u _ => (hsame u).2.1)).mpr (h.links p)
  · intro p u hu
    rw [(hsame u).2.2]
    exact h.priority p u hu

omit [Fintype τ] in
theorem prepare_threads (s : SchedulerData τ) (t u : τ) :
    (s.prepare t).next u = s.next u ∧ (s.prepare t).previous u = s.previous u ∧
      ((s.prepare t).threads u).status = (s.threads u).status ∧
      ((s.prepare t).threads u).priority = (s.threads u).priority := by
  unfold SchedulerData.prepare
  split
  · rw [SchedulerData.next, SchedulerData.previous, SchedulerData.modify_threads]
    split
    · exact ⟨rfl, rfl, rfl, rfl⟩
    · exact ⟨rfl, rfl, rfl, rfl⟩
  · exact ⟨rfl, rfl, rfl, rfl⟩

omit [Fintype τ] in
theorem prepare_bare (s : SchedulerData τ) (t : τ) : (s.prepare t).bare = s.bare := by
  unfold SchedulerData.prepare
  split
  · rfl
  · rfl

omit [Fintype τ] in
theorem queued_prepare {s : SchedulerData τ} (h : s.Queued q) : (s.prepare t).Queued q := by
  unfold SchedulerData.prepare
  split
  · exact queued_modify h fun _ => ⟨rfl, rfl, rfl⟩
  · exact h

/-- A thread that was not enrolled goes to its queue. -/
theorem Inv.enroll (h : m.Inv q) (ht : m.enrolled t = false) :
    ∃ q', (m.perform (.enroll t)).Inv q' := by
  have hne : t ≠ m.data.currentThread := by
    rintro rfl
    rw [h.current] at ht
    cases ht
  have hbare := prepare_bare m.data t
  have hcur : (m.data.prepare t).currentThread = m.data.currentThread :=
    congrArg (fun d => d.2.1) hbare
  have hidle : (m.data.prepare t).idleThread = m.data.idleThread :=
    congrArg (fun d => d.2.2.1) hbare
  have hthreads := prepare_threads m.data t
  have hq := queued_prepare h.queued (t := t)
  obtain ⟨-, hcur', hidle'⟩ := push_bare (m.data.prepare t) t
  rw [hcur] at hcur'
  rw [hidle] at hidle'
  have hpush := hq.push (h.out (Or.inl ht)) ((hthreads t).1.trans (h.loose t (Or.inl ht)).1)
    ((hthreads t).2.2.2 ▸ h.priority t)
  have henr : ∀ u, Function.update m.enrolled t true u = true ↔ u = t ∨ m.enrolled u = true := by
    intro u
    by_cases hu : u = t
    · rw [hu, Function.update_self]
      simp
    · rw [Function.update_of_ne hu]
      simp [hu]
  refine ⟨_, hpush, ?_, ?_, ?_, ?_, ?_, ?_⟩
  · intro p u hu
    show Function.update m.enrolled t true u = true ∧
      u ≠ (SchedulerData.push t (m.data.prepare t)).currentThread ∧
      ((SchedulerData.push t (m.data.prepare t)).threads u).status = .queued
    rw [henr, hcur', SchedulerData.push_status]
    rcases mem_update_push.mp hu with hu | ⟨rfl, -⟩
    · obtain ⟨h1, h2, h3⟩ := h.member p u hu
      refine ⟨Or.inr h1, h2, ?_⟩
      split
      · rfl
      · rw [(hthreads u).2.2.1, h3]
    · exact ⟨Or.inl rfl, hne, if_pos rfl⟩
  · intro u hu hucur
    change Function.update m.enrolled t true u = true at hu
    change u ≠ (SchedulerData.push t (m.data.prepare t)).currentThread at hucur
    rw [henr] at hu
    rw [hcur'] at hucur
    show u ∈ Function.update q _ _ ((SchedulerData.push t (m.data.prepare t)).threads u).priority
    rw [SchedulerData.push_priority]
    refine mem_update_push.mpr ?_
    by_cases hut : u = t
    · rw [hut]
      exact Or.inr ⟨rfl, rfl⟩
    · rw [(hthreads u).2.2.2]
      exact Or.inl (h.total u (hu.resolve_left hut) hucur)
  · show Function.update m.enrolled t true
      (SchedulerData.push t (m.data.prepare t)).currentThread = true
    rw [henr, hcur']
    exact Or.inr h.current
  · intro u hu
    change Function.update m.enrolled t true u = false ∨
      u = (SchedulerData.push t (m.data.prepare t)).currentThread
      at hu
    rw [hcur'] at hu
    have hu' : u ≠ t ∧ (m.enrolled u = false ∨ u = m.data.currentThread) := by
      rcases hu with hu | rfl
      · have hut : u ≠ t := by
          rintro rfl
          rw [Function.update_self] at hu
          cases hu
        rw [Function.update_of_ne hut] at hu
        exact ⟨hut, Or.inl hu⟩
      · exact ⟨hne.symm, Or.inr rfl⟩
    obtain ⟨h1, h2⟩ := push_links hq hu'.1 (h.out hu'.2)
    obtain ⟨h3, h4⟩ := h.loose u hu'.2
    exact ⟨h1.trans ((hthreads u).1.trans h3), h2.trans ((hthreads u).2.1.trans h4)⟩
  · show Function.update m.enrolled t true (SchedulerData.push t (m.data.prepare t)).idleThread = true
    rw [henr, hidle']
    exact Or.inr h.idle
  · intro u
    show ((SchedulerData.push t (m.data.prepare t)).threads u).priority < _
    rw [SchedulerData.push_priority, (hthreads u).2.2.2]
    exact h.priority u

/-! ### Ticking -/

/-- The queues once the current thread is back in its own. -/
def requeued (m : Machine τ) (q : Nat → List τ) : Nat → List τ :=
  let p := (m.data.threads m.data.currentThread).priority
  Function.update q p (q p ++ [m.data.currentThread])

omit [DecidableEq τ] [Fintype τ] in
/-- Then exactly the enrolled threads are queued. -/
theorem Inv.mem_requeued (h : m.Inv q) :
    t ∈ m.requeued q p ↔ m.enrolled t = true ∧ (m.data.threads t).priority = p := by
  refine mem_update_push.trans ?_
  constructor
  · rintro (ht | ⟨rfl, rfl⟩)
    · exact ⟨(h.member p t ht).1, (h.queued.priority p t ht).1⟩
    · exact ⟨h.current, rfl⟩
  · rintro ⟨ht, rfl⟩
    by_cases hcur : t = m.data.currentThread
    · rw [hcur]
      exact Or.inr ⟨rfl, rfl⟩
    · exact Or.inl (h.total t ht hcur)

omit [Fintype τ] in
theorem Inv.queued_push (h : m.Inv q) :
    (m.data.push m.data.currentThread).Queued (m.requeued q) :=
  h.queued.push (h.out (Or.inr rfl)) (h.loose _ (Or.inr rfl)).1 (h.priority _)

omit [Fintype τ] in
/-- The highest queue has a thread for the core exactly if the machine is runnable. -/
theorem Inv.runnable_iff (h : m.Inv q) :
    m.Runnable ↔ ∃ u ∈ m.requeued q (m.data.push m.data.currentThread).bitmap.toNat.log2,
      m.data.admits m.data.cpuIndex u = true := by
  have hq := h.queued_push
  have hne : (m.data.push m.data.currentThread).bitmap ≠ 0#64 := by
    refine hq.bitmap_ne (p := (m.data.threads m.data.currentThread).priority) ?_
    exact List.ne_nil_of_mem (h.mem_requeued.mpr ⟨h.current, rfl⟩)
  obtain ⟨htop, hmax⟩ := hq.top hne
  constructor
  · rintro ⟨t, ht, hadmits, hle⟩
    refine ⟨t, h.mem_requeued.mpr ⟨ht, ?_⟩, hadmits⟩
    obtain ⟨u, hu⟩ := List.exists_mem_of_ne_nil _ htop
    obtain ⟨henr, hprio⟩ := h.mem_requeued.mp hu
    have h1 := hle u henr
    have h2 := hmax _ (List.ne_nil_of_mem (h.mem_requeued.mpr ⟨ht, rfl⟩))
    omega
  · rintro ⟨u, hu, hadmits⟩
    obtain ⟨henr, hprio⟩ := h.mem_requeued.mp hu
    refine ⟨u, henr, hadmits, ?_⟩
    intro v hv
    rw [hprio]
    exact hmax _ (List.ne_nil_of_mem (h.mem_requeued.mpr ⟨hv, rfl⟩))

omit [DecidableEq τ] [Fintype τ] in
theorem first_admitted {l : List τ} {f : τ → Bool} (h : ∃ u ∈ l, f u = true) :
    ∃ xs x ys, l = xs ++ x :: ys ∧ (∀ u ∈ xs, f u = false) ∧ f x = true := by
  obtain ⟨u, hu, hf⟩ := h
  cases hfind : l.find? f with
  | none => exact absurd hf (List.find?_eq_none.mp hfind u hu)
  | some x =>
      obtain ⟨hx, xs, ys, hl, hxs⟩ := List.find?_eq_some_iff_append.mp hfind
      exact ⟨xs, x, ys, hl, fun v hv => by simpa using hxs v hv, hx⟩

/-- The state in which the core switches to a thread that it has taken from its queue. -/
structure Chosen (m : Machine τ) (x : τ) (q : Nat → List τ) (s : SchedulerData τ) : Prop where
  queued : s.Queued q
  mem : ∀ {p t}, t ∈ q p ↔ (m.enrolled t = true ∧ (m.data.threads t).priority = p) ∧ t ≠ x
  enrolled : m.enrolled x = true
  idle : s.idleThread = m.data.idleThread
  priority : ∀ t, (s.threads t).priority = (m.data.threads t).priority
  status : ∀ t, m.enrolled t = true → (s.threads t).status = .queued
  loose : ∀ t, m.enrolled t = false ∨ t = x → s.next t = none ∧ s.previous t = none

theorem Inv.choose (h : m.Inv q) (hrun : m.Runnable) (empty : Bool) :
    ∃ x q' s', m.data.schedulerTick false empty = s'.switchTo x ∧ m.Chosen x q' s' := by
  obtain ⟨xs, x, ys, hsplit, hxs, hx⟩ := first_admitted (h.runnable_iff.mp hrun)
  obtain ⟨hcpu, hcur, hidle⟩ := push_bare m.data m.data.currentThread
  have hq := h.queued_push
  have hnd := hq.nodup (m.data.push m.data.currentThread).bitmap.toNat.log2
  rw [hsplit] at hnd
  obtain ⟨hxout, -⟩ := List.nodup_cons.mp (List.nodup_middle.mp hnd)
  have hadmits : ∀ u, (m.data.push m.data.currentThread).admits
      (m.data.push m.data.currentThread).cpuIndex u = m.data.admits m.data.cpuIndex u := by
    intro u
    rw [hcpu, SchedulerData.push_admits]
  obtain ⟨s', hpop, hqueued, hpopped⟩ := hq.pop empty hsplit
    (fun u hu => (hadmits u).trans (hxs u hu)) ((hadmits x).trans hx)
  refine ⟨x, _, s', ?_, hqueued, ?_, ?_, ?_, ?_, ?_, ?_⟩
  · unfold SchedulerData.schedulerTick SchedulerData.getNext
    rw [if_neg Bool.false_ne_true]
    dsimp only
    rw [hpop]
  · intro r t
    generalize (m.data.push m.data.currentThread).bitmap.toNat.log2 = p at hsplit
    rw [← h.mem_requeued]
    by_cases hr : r = p
    · subst hr
      rw [Function.update_self, hsplit, List.perm_middle.mem_iff, List.mem_cons]
      constructor
      · intro ht
        refine ⟨Or.inr ht, ?_⟩
        rintro rfl
        exact hxout ht
      · rintro ⟨ht, hne⟩
        exact ht.resolve_left hne
    · rw [Function.update_of_ne hr]
      refine ⟨fun ht => ⟨ht, ?_⟩, fun ht => ht.1⟩
      rintro rfl
      have hmemx := h.mem_requeued.mp (show t ∈ m.requeued q p by simp [hsplit])
      exact hr ((h.mem_requeued.mp ht).2.symm.trans hmemx.2)
  · exact (h.mem_requeued.mp (hsplit ▸ List.mem_append_right xs List.mem_cons_self)).1
  · rw [hpopped.core.2.2, hidle]
  · intro t
    rw [(hpopped.same t).2.1, SchedulerData.push_priority]
  · intro t ht
    rw [(hpopped.same t).1, SchedulerData.push_status]
    split
    · rfl
    · rename_i htcur
      exact (h.member _ t (h.total t ht htcur)).2.2
  · rintro t (ht | rfl)
    · have htcur : t ≠ m.data.currentThread := by
        rintro rfl
        rw [h.current] at ht
        cases ht
      obtain ⟨h1, h2⟩ := hpopped.others t fun hmem => by
        rw [← hsplit] at hmem
        rw [(h.mem_requeued.mp hmem).1] at ht
        cases ht
      obtain ⟨h3, h4⟩ := push_links h.queued htcur (h.out (Or.inl ht))
      obtain ⟨h5, h6⟩ := h.loose t (Or.inl ht)
      exact ⟨h1.trans (h3.trans h5), h2.trans (h4.trans h6)⟩
    · exact ⟨hpopped.next, hpopped.previous⟩

omit [Fintype τ] in
theorem switchTo_threads (s : SchedulerData τ) (x u : τ) :
    (s.switchTo x).threads u =
      if u = x then { s.threads u with status := .executing } else s.threads u := by
  show (s.modify x fun d => { d with status := .executing }).threads u = _
  rw [SchedulerData.modify_threads]

omit [Fintype τ] in
theorem switchTo_same (s : SchedulerData τ) (x u : τ) :
    (s.switchTo x).next u = s.next u ∧ (s.switchTo x).previous u = s.previous u ∧
      ((s.switchTo x).threads u).priority = (s.threads u).priority := by
  rw [SchedulerData.next, SchedulerData.previous, switchTo_threads]
  split
  · exact ⟨rfl, rfl, rfl⟩
  · exact ⟨rfl, rfl, rfl⟩

omit [Fintype τ] in
theorem queued_switchTo {s : SchedulerData τ} (h : s.Queued q) (x : τ) :
    (s.switchTo x).Queued q := by
  have hmod : (s.modify x fun d => { d with status := .executing }).Queued q :=
    queued_modify h fun _ => ⟨rfl, rfl, rfl⟩
  exact ⟨hmod.links, hmod.first, hmod.last, hmod.nodup, hmod.priority, hmod.bitmap⟩

omit [Fintype τ] in
theorem Chosen.inv {x : τ} {s : SchedulerData τ} (h : m.Inv q) {q' : Nat → List τ}
    (hc : m.Chosen x q' s) : Inv ⟨s.switchTo x, m.enrolled⟩ q' := by
  have hsame := switchTo_same s x
  refine ⟨queued_switchTo hc.queued x, ?_, ?_, hc.enrolled, ?_, ?_, ?_⟩
  · intro p t ht
    obtain ⟨⟨henr, -⟩, hne⟩ := hc.mem.mp ht
    refine ⟨henr, hne, ?_⟩
    show ((s.switchTo x).threads t).status = .queued
    rw [switchTo_threads, if_neg hne]
    exact hc.status t henr
  · intro t henr hne
    show t ∈ q' ((s.switchTo x).threads t).priority
    rw [(hsame t).2.2, hc.priority]
    exact hc.mem.mpr ⟨⟨henr, rfl⟩, hne⟩
  · intro t ht
    show (s.switchTo x).next t = none ∧ (s.switchTo x).previous t = none
    rw [(hsame t).1, (hsame t).2.1]
    exact hc.loose t ht
  · show m.enrolled s.idleThread = true
    rw [hc.idle]
    exact h.idle
  · intro t
    show ((s.switchTo x).threads t).priority < priorityLevels
    rw [(hsame t).2.2, hc.priority]
    exact h.priority t

/-- A tick that finds a thread makes it the current one. -/
theorem Inv.tick (h : m.Inv q) (hrun : m.Runnable) (empty : Bool) :
    ∃ q', (m.perform (.tick false empty)).Inv q' ∧
      ((m.perform (.tick false empty)).data.threads
        (m.perform (.tick false empty)).data.currentThread).status = .executing := by
  obtain ⟨x, q', s', hresult, hc⟩ := h.choose hrun empty
  have heq : m.perform (.tick false empty) = ⟨s'.switchTo x, m.enrolled⟩ :=
    congrArg (Machine.mk · m.enrolled) hresult
  rw [heq]
  refine ⟨q', hc.inv h, ?_⟩
  show ((s'.switchTo x).threads x).status = .executing
  rw [switchTo_threads, if_pos rfl]

/-- A tick that finds none makes the idle thread current and leaves it queued. -/
theorem Inv.tick_idle (h : m.Inv q) (hrun : ¬ m.Runnable) (empty : Bool) :
    ¬ (m.perform (.tick false empty)).Placed m.data.idleThread := by
  have hq := h.queued_push
  obtain ⟨hcpu, -, hidle⟩ := push_bare m.data m.data.currentThread
  have hpop : (m.data.push m.data.currentThread).pop
      (m.data.push m.data.currentThread).cpuIndex empty =
      (none, m.data.push m.data.currentThread) := by
    refine hq.pop_none empty ?_
    intro u hu
    rw [hcpu, SchedulerData.push_admits]
    by_contra hadmits
    exact hrun (h.runnable_iff.mpr ⟨u, hu, Bool.not_eq_false _ ▸ hadmits⟩)
  have heq : m.perform (.tick false empty) =
      ⟨(m.data.push m.data.currentThread).switchTo m.data.idleThread, m.enrolled⟩ := by
    refine congrArg (Machine.mk · m.enrolled) ?_
    unfold SchedulerData.schedulerTick SchedulerData.getNext
    rw [if_neg Bool.false_ne_true]
    dsimp only
    rw [hpop]
    dsimp only
    rw [hidle]
  have hin : (m.perform (.tick false empty)).InQueue
      (m.data.threads m.data.idleThread).priority m.data.idleThread := by
    rw [heq]
    exact (inQueue_iff (queued_switchTo hq _)).mpr (h.mem_requeued.mpr ⟨h.idle, rfl⟩)
  rintro (⟨-, hout, -⟩ | ⟨hne, -⟩)
  · exact hout _ hin
  · rw [heq] at hne
    exact hne rfl

/-! ## Runs -/

omit [Fintype τ] in
theorem inv_init {cpu : Nat} {idle : τ} {threads : τ → ThreadSchedulerState τ}
    (hfresh : Fresh cpu idle threads) : (init cpu idle threads).Inv fun _ => [] := by
  have hsame : ∀ t, (init cpu idle threads).data.next t = (threads t).next ∧
      (init cpu idle threads).data.previous t = (threads t).previous ∧
      ((init cpu idle threads).data.threads t).priority = (threads t).priority := by
    intro t
    unfold SchedulerData.next SchedulerData.previous init
    by_cases ht : t = idle
    · rw [ht]
      simp
    · simp [ht]
  refine ⟨⟨fun _ => trivial, fun _ => rfl, fun _ => rfl, fun _ => List.nodup_nil, nofun, ?_⟩, nofun,
    ?_, decide_eq_true rfl, ?_, decide_eq_true rfl, ?_⟩
  · intro p
    show (0#64).getLsbD p = true ↔ _
    simp
  · intro t ht hne
    exact absurd (of_decide_eq_true ht) hne
  · intro t _
    rw [(hsame t).1, (hsame t).2.1]
    exact hfresh.links t
  · intro t
    rw [(hsame t).2.2]
    exact hfresh.priority t

omit [DecidableEq τ] [Fintype τ] in
/-- A thread that may be enrolled is not yet, once the current one executes. -/
theorem Inv.not_enrolled (h : m.Inv q)
    (hexec : (m.data.threads m.data.currentThread).status = .executing)
    (henabled : m.Enabled (.enroll t)) : m.enrolled t = false := by
  by_contra henr
  rw [Bool.not_eq_false] at henr
  rcases h.placed hexec henr with ⟨-, -, hstatus⟩ | ⟨-, -, hstatus⟩
  · rcases henabled with hst | hst
    · rw [hst] at hstatus
      cases hstatus
    · rw [hst] at hstatus
      cases hstatus
  · rcases henabled with hst | hst
    · rw [hst] at hstatus
      cases hstatus
    · rw [hst] at hstatus
      cases hstatus

theorem enroll_current (t : τ) :
    (m.perform (.enroll t)).data.currentThread = m.data.currentThread := by
  show (SchedulerData.push t (m.data.prepare t)).currentThread = _
  rw [(push_bare _ t).2.1]
  exact congrArg (fun d => d.2.1) (prepare_bare m.data t)

theorem enroll_status (t u : τ) :
    ((m.perform (.enroll t)).data.threads u).status =
      if u = t then .queued else (m.data.threads u).status := by
  show ((SchedulerData.push t (m.data.prepare t)).threads u).status = _
  rw [SchedulerData.push_status, (prepare_threads m.data t u).2.2.1]

/-- A fit step keeps the invariant and leaves the current thread executing. -/
theorem Inv.perform (h : m.Inv q) {a : Action τ} (henabled : m.Enabled a) (hfit : m.Fit a) :
    ∃ q', (m.perform a).Inv q' ∧
      ((m.perform a).data.threads (m.perform a).data.currentThread).status = .executing := by
  cases a with
  | enroll t =>
      have ht := h.not_enrolled hfit henabled
      obtain ⟨q', hq'⟩ := h.enroll ht
      refine ⟨q', hq', ?_⟩
      rw [enroll_current, enroll_status, if_neg]
      · exact hfit
      · rintro rfl
        rw [h.current] at ht
        cases ht
  | tick postpone empty =>
      cases postpone with
      | true => exact ⟨q, h, hfit⟩
      | false => exact h.tick hfit empty

theorem Reachable.inv {m₀ : Machine τ} {q₀ : Nat → List τ} (hm : Reachable Fit m₀ m)
    (h₀ : m₀.Inv q₀) : ∃ q, m.Inv q := by
  induction hm with
  | start => exact ⟨q₀, h₀⟩
  | step a _ henabled hfit ih =>
      obtain ⟨q, h⟩ := ih
      obtain ⟨q', h', -⟩ := h.perform henabled hfit
      exact ⟨q', h'⟩

theorem Inv.step_sound (h : m.Inv q) {a : Action τ} (henabled : m.Enabled a) (hfit : m.Fit a) :
    m.Sound a := by
  obtain ⟨q', h', hexec⟩ := h.perform henabled hfit
  refine ⟨?_, fun t ht => h'.placed hexec ht⟩
  cases a with
  | enroll t => exact h.loose t (Or.inl (h.not_enrolled hfit henabled))
  | tick postpone empty =>
      cases postpone with
      | true => trivial
      | false => exact h.loose _ (Or.inr rfl)

theorem Inv.fit (h : m.Inv q) {a : Action τ} (hsound : m.Sound a) : m.Fit a := by
  obtain ⟨-, hplaced⟩ := hsound
  cases a with
  | enroll t =>
      have hcur := hplaced m.data.currentThread (by
        show Function.update m.enrolled t true _ = true
        by_cases ht : m.data.currentThread = t
        · rw [ht, Function.update_self]
        · rw [Function.update_of_ne ht, h.current])
      rw [← enroll_current t] at hcur
      have hexec := hcur.executing
      rw [enroll_current, enroll_status] at hexec
      split at hexec
      · cases hexec
      · exact hexec
  | tick postpone empty =>
      cases postpone with
      | true => exact (hplaced m.data.currentThread h.current).executing
      | false =>
          by_contra hrun
          exact h.tick_idle hrun empty (hplaced m.data.idleThread h.idle)

/-- After fit steps, the next step leaves every thread in one place exactly if it is fit. -/
theorem sound_iff_fit {cpu : Nat} {idle : τ} {threads : τ → ThreadSchedulerState τ}
    (hfresh : Fresh cpu idle threads) (hm : Reachable Fit (init cpu idle threads) m)
    {a : Action τ} (henabled : m.Enabled a) : m.Sound a ↔ m.Fit a := by
  obtain ⟨q, h⟩ := hm.inv (inv_init hfresh)
  exact ⟨h.fit, h.step_sound henabled⟩

/-- Thread `1` has a higher priority than the idle thread `0` and may only run on core 1. -/
def elsewhere (t : Fin 2) : ThreadSchedulerState (Fin 2) :=
  ⟨none, none, false, none, .unscheduled, t, 2 * t⟩

theorem elsewhere_fresh : Fresh 0 0 elsewhere :=
  ⟨by decide, by decide, by decide, by decide, by decide⟩

theorem elsewhere_first_tick :
    (init 0 0 elsewhere).Fit (.tick false false) ∧
      (init 0 0 elsewhere).Sound (.tick false false) := by
  have hfit : (init 0 0 elsewhere).Fit (.tick false false) :=
    ⟨0, by decide, by decide, by decide⟩
  have henabled : (init 0 0 elsewhere).Enabled (.tick false false) := trivial
  exact ⟨hfit, (sound_iff_fit elsewhere_fresh .start henabled).mpr hfit⟩

/-- The core ticks, thread `1` is enrolled and the core ticks again: the idle thread is then
both current and queued. -/
theorem elsewhere_second_tick :
    ∃ m, Reachable (fun _ _ => True) (init 0 0 elsewhere) m ∧ m.Enabled (.tick false false) ∧
      ¬ m.Sound (.tick false false) := by
  have hticked : Reachable Fit (init 0 0 elsewhere)
      ((init 0 0 elsewhere).perform (.tick false false)) :=
    .step _ .start trivial ⟨0, by decide, by decide, by decide⟩
  have hexec : ((init 0 0 elsewhere).perform (.tick false false)).Fit (.enroll 1) := by
    unfold Fit
    decide
  have henrolled := hticked.step (.enroll 1) (Or.inl (by decide)) hexec
  obtain ⟨q, h⟩ := henrolled.inv (inv_init elsewhere_fresh)
  refine ⟨_, .step (.enroll 1) (.step (.tick false false) .start trivial trivial)
    (Or.inl (by decide)) trivial, trivial, ?_⟩
  intro hsound
  obtain ⟨t, ht, hadmits, hle⟩ := h.fit hsound
  have hone := hle 1 (by decide)
  revert t
  decide

end Machine

end Scheduler

end Beelzebub
