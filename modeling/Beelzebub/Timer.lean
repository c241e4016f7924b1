import Mathlib.Data.List.Perm.Basic
import Mathlib.Data.List.Range
import Mathlib.Data.List.GetD
import Mathlib.Tactic.Linarith

/-!
# Timers of a core

A core keeps its timers as deltas: the entry at the front counts from the last arming of the
countdown, every other one from the entry before it.  An entry is known here by the number of
the `Enqueue` call that was accepted for it, in place of the function and the cookie.

Handlers take no time, and a timer function runs at the end of the handler, after the next
entry was armed: its own calls of `Enqueue` are the steps that follow the tick.
-/

namespace Beelzebub

namespace Timer

/-! ## The code -/

structure TimerEntry where
  cookie : Nat
  time : Nat
  deriving DecidableEq, Repr

/-- `Timer::Count`. -/
def maxCount : Nat := 32

/-- The timers of a core with the countdown of the APIC timer, and the history: the time in
ticks, when each accepted timer is due, and which ones were called at what time. -/
structure Core where
  timers : List TimerEntry
  count : Nat
  now : Nat
  accepted : List Nat
  called : List (Nat × Nat)
  deriving DecidableEq, Repr

/-- `Timer::Initialize`. -/
def Core.init : Core := ⟨[], 0, 0, [], []⟩

/-- The loop of `Enqueue`: the index where the entry goes and the ticks up to there. -/
def place (ticks : Nat) : Nat → List TimerEntry → Nat × Nat
  | lastTicks, [] => (0, lastTicks)
  | lastTicks, e :: es =>
      if lastTicks + e.time ≤ ticks then
        let (i, last) := place ticks (lastTicks + e.time) es
        (i + 1, last)
      else (0, lastTicks)

/-- The entry after the insertion point counts from the new one. -/
def lower (diff : Nat) : List TimerEntry → List TimerEntry
  | [] => []
  | e :: es => { e with time := (e.time + 2 ^ 32 - diff) % 2 ^ 32 } :: es

namespace Core

/-- `MyTimers[0].Time - ApicTimer::GetCount()`, on 32 bits. -/
def elapsed (s : Core) : Nat :=
  match s.timers with
  | [] => 0
  | e :: _ => (e.time + 2 ^ 32 - s.count) % 2 ^ 32

/-- The entry is accepted, to be called so many ticks from now. -/
def accept (delayTicks : Nat) (timers : List TimerEntry) (count : Nat) (s : Core) : Core :=
  { s with timers := timers, count := count,
           accepted := s.accepted ++ [s.now + max 1 delayTicks] }

/-- `Enqueue` on a core with timers already queued. -/
def insert (delayTicks ticks : Nat) (s : Core) : Bool × Core :=
  let ticks := (ticks + s.elapsed) % 2 ^ 64
  let (i, lastTicks) := place ticks 0 s.timers
  if ticks - lastTicks > 0xFFFFFFFF then (false, s)
  else
    let diff := ticks - lastTicks
    (true, s.accept delayTicks
      (s.timers.take i ++ ⟨s.accepted.length, diff⟩ :: lower diff (s.timers.drop i))
      (if i = 0 then diff else s.count))

def enqueue (ticksPerMicrosecond delay : Nat) (s : Core) : Bool × Core :=
  let product := delay * ticksPerMicrosecond % 2 ^ 64
  let ticks := if product = 0 then 1 else product
  if s.timers.length = maxCount then (false, s)
  else if s.timers.length > 0 then s.insert (delay * ticksPerMicrosecond) ticks
  else if ticks > 0xFFFFFFFF then (false, s)
  else
    (true, s.accept (delay * ticksPerMicrosecond) [⟨s.accepted.length, ticks⟩] ticks)

/-- `TimerIrqHandler`, up to the call of the function. -/
def timerIrqHandler (s : Core) : Core :=
  match s.timers with
  | [] => s
  | e :: rest =>
      { s with timers := rest,
               count := match rest with
                 | [] => s.count
                 | next :: _ => if next.time = 0 then 1 else next.time
               called := s.called ++ [(e.cookie, s.now)] }

/-- A tick of the countdown, which stops at zero. -/
def tick (s : Core) : Core :=
  match s.count with
  | 0 => { s with now := s.now + 1 }
  | 1 => { s with now := s.now + 1, count := 0 }.timerIrqHandler
  | count + 2 => { s with now := s.now + 1, count := count + 1 }

end Core

/-- A call of `Enqueue` with this delay, or a tick. -/
inductive Action where
  | enqueue (delay : Nat)
  | tick

def Core.perform (tpm : Nat) (s : Core) : Action → Core
  | .enqueue delay => (s.enqueue tpm delay).2
  | .tick => s.tick

/-- The states that runs of a kind lead to. -/
inductive Reachable (tpm : Nat) (kind : Core → Nat → Prop) : Core → Prop
  | init : Reachable tpm kind .init
  | enqueue {s : Core} (delay : Nat) : Reachable tpm kind s → kind s delay →
      Reachable tpm kind (s.perform tpm (.enqueue delay))
  | tick {s : Core} : Reachable tpm kind s → Reachable tpm kind (s.perform tpm .tick)

/-! ## What is asked -/

namespace Core

/-- When the timer is due. -/
def deadline (s : Core) (i : Nat) : Nat := s.accepted.getD i 0

/-- The timers due at the same instant that were accepted before. -/
def ahead (s : Core) (i : Nat) : Nat := (s.accepted.take i).count (s.deadline i)

/-- When the entries after the one called at `t` are called. -/
def callsAfter : Nat → List TimerEntry → List (Nat × Nat)
  | _, [] => []
  | t, e :: es =>
      (e.cookie, t + if e.time = 0 then 1 else e.time) ::
        callsAfter (t + if e.time = 0 then 1 else e.time) es

/-- When the queued timers are called unless something is queued before. -/
def schedule (s : Core) : List (Nat × Nat) :=
  match s.timers with
  | [] => []
  | e :: es => (e.cookie, s.now + s.count) :: callsAfter (s.now + s.count) es

/-- Every accepted timer is queued or was called, once; the calls were on time, and no queued
timer is overdue. -/
structure OnTime (s : Core) : Prop where
  once : (s.called.map Prod.fst ++ s.timers.map TimerEntry.cookie).Perm
    (List.range s.accepted.length)
  called : ∀ c ∈ s.called, s.deadline c.1 ≤ c.2 ∧ c.2 ≤ s.deadline c.1 + s.ahead c.1
  queued : ∀ e ∈ s.timers, s.now < s.deadline e.cookie + s.ahead e.cookie

/-- A call of `Enqueue` changes the time of no timer already queued. -/
def Undisturbed (tpm : Nat) (s : Core) (delay : Nat) : Prop :=
  s.schedule ⊆ (s.enqueue tpm delay).2.schedule

/-! ## The condition -/

/-- The instants at which queued timers are due. -/
def pending (s : Core) : List Nat := s.timers.map fun e => s.deadline e.cookie

/-- The instant `due` is one for which the queue has a place: it is not before all others with
the countdown under way, not one that is taken and followed by another, and not one after an
instant taken twice, unless so far after that the call is refused. -/
structure Room (s : Core) (due : Nat) : Prop where
  front : (∀ x ∈ s.pending, due < x) → s.elapsed = 0
  taken : due ∈ s.pending → ∀ x ∈ s.pending, x ≤ due
  shared : ∀ x, 2 ≤ s.pending.count x → due ≤ x ∨ x + 0xFFFFFFFF < due

/-- The call is refused for want of space, or its ticks do not overflow and either a queued
timer is late already or there is a place for the instant. -/
def Fit (tpm : Nat) (s : Core) (delay : Nat) : Prop :=
  s.timers.length = maxCount ∨
    (delay * tpm + s.elapsed < 2 ^ 64 ∧
      ((∃ x ∈ s.pending, x ≤ s.now) ∨ s.Room (s.now + max 1 (delay * tpm))))

/-! ## The invariant -/

/-- The ticks that an armed entry takes. -/
def duration (e : TimerEntry) : Nat := if e.time = 0 then 1 else e.time

def total (es : List TimerEntry) : Nat := (es.map TimerEntry.time).sum

/-- Entries due at instants of their own, each after the one before it; `due` says when a timer
is due and `late` by how much it is late. -/
def Timed (due late : Nat → Nat) : Nat → List TimerEntry → Prop
  | _, [] => True
  | b, e :: es =>
      (0 < e.time ∧ e.time < 2 ^ 32 ∧ due e.cookie = b + e.time ∧ late e.cookie = 0) ∧
        Timed due late (b + e.time) es

/-- Entries all due at the instant `x`, the first one late by `k` ticks. -/
def Crowd (due late : Nat → Nat) (x : Nat) : Nat → List TimerEntry → Prop
  | _, [] => True
  | k, e :: es =>
      (e.time = 0 ∧ due e.cookie = x ∧ late e.cookie = k) ∧ Crowd due late x (k + 1) es

/-- The queue, armed at `b`: entries with instants of their own, then a crowd that shares the
instant of the last of them or, when none is left, one in the past. -/
structure Queue (s : Core) (b : Nat) (lead tail : List TimerEntry) (x k : Nat) : Prop where
  split : s.timers = lead ++ tail
  timed : Timed s.deadline s.ahead b lead
  crowd : Crowd s.deadline s.ahead x k tail
  meet : x + k = b + total lead + 1
  late : 1 ≤ k
  first : lead ≠ [] → k = 1
  armed : b ≤ s.now
  empty : s.timers = [] → s.count = 0
  countdown : ∀ e es, s.timers = e :: es → 0 < s.count ∧ b + duration e = s.now + s.count

structure Inv (s : Core) : Prop where
  once : (s.called.map Prod.fst ++ s.timers.map TimerEntry.cookie).Perm
    (List.range s.accepted.length)
  past : ∀ c ∈ s.called, s.deadline c.1 ≤ s.now
  exactly : ∀ c ∈ s.called, c.2 = s.deadline c.1 + s.ahead c.1
  queue : ∃ b lead tail x k, s.Queue b lead tail x k

variable {s : Core} {b x k : Nat} {lead tail : List TimerEntry} {due late : Nat → Nat}

@[simp]
theorem total_nil : total [] = 0 := rfl

@[simp]
theorem total_cons (e : TimerEntry) (es : List TimerEntry) : total (e :: es) = e.time + total es :=
  rfl

@[simp]
theorem total_append (l r : List TimerEntry) : total (l ++ r) = total l + total r := by
  simp [total]

theorem timed_append {l r : List TimerEntry} :
    Timed due late b (l ++ r) ↔ Timed due late b l ∧ Timed due late (b + total l) r := by
  induction l generalizing b with
  | nil => simp [Timed]
  | cons e es ih =>
      show _ ∧ Timed due late (b + e.time) (es ++ r) ↔ (_ ∧ _) ∧ _
      rw [ih, total_cons, Nat.add_assoc]
      exact and_assoc.symm

theorem crowd_append {l r : List TimerEntry} :
    Crowd due late x k (l ++ r) ↔ Crowd due late x k l ∧ Crowd due late x (k + l.length) r := by
  induction l generalizing k with
  | nil => simp [Crowd]
  | cons e es ih =>
      show _ ∧ Crowd due late x (k + 1) (es ++ r) ↔ (_ ∧ _) ∧ _
      rw [ih, List.length_cons, Nat.add_assoc, Nat.add_comm 1]
      exact and_assoc.symm

/-- What is said of entries depends on their timers only. -/
theorem Timed.congr {due' late' : Nat → Nat} {es : List TimerEntry} (h : Timed due late b es)
    (hsame : ∀ e ∈ es, due' e.cookie = due e.cookie ∧ late' e.cookie = late e.cookie) :
    Timed due' late' b es := by
  induction es generalizing b with
  | nil => trivial
  | cons e es ih =>
      obtain ⟨⟨hpos, hlt, hdue, hlate⟩, hrest⟩ := h
      obtain ⟨hd, hl⟩ := hsame e List.mem_cons_self
      exact ⟨⟨hpos, hlt, hd.trans hdue, hl.trans hlate⟩,
        ih hrest fun e he => hsame e (List.mem_cons_of_mem _ he)⟩

theorem Crowd.congr {due' late' : Nat → Nat} {es : List TimerEntry} (h : Crowd due late x k es)
    (hsame : ∀ e ∈ es, due' e.cookie = due e.cookie ∧ late' e.cookie = late e.cookie) :
    Crowd due' late' x k es := by
  induction es generalizing k with
  | nil => trivial
  | cons e es ih =>
      obtain ⟨⟨hzero, hdue, hlate⟩, hrest⟩ := h
      obtain ⟨hd, hl⟩ := hsame e List.mem_cons_self
      exact ⟨⟨hzero, hd.trans hdue, hl.trans hlate⟩,
        ih hrest fun e he => hsame e (List.mem_cons_of_mem _ he)⟩

/-- Entries with instants of their own are due after the arming, up to the total. -/
theorem Timed.bounds {es : List TimerEntry} (h : Timed due late b es) {e : TimerEntry}
    (he : e ∈ es) : b < due e.cookie ∧ due e.cookie ≤ b + total es := by
  induction es generalizing b with
  | nil => cases he
  | cons e' es ih =>
      obtain ⟨⟨hpos, -, hdue, -⟩, hrest⟩ := h
      rw [total_cons]
      cases he with
      | head => omega
      | tail _ he =>
          have := ih hrest he
          omega

theorem Crowd.due_eq {es : List TimerEntry} (h : Crowd due late x k es) {e : TimerEntry}
    (he : e ∈ es) : due e.cookie = x := by
  induction es generalizing k with
  | nil => cases he
  | cons e' es ih =>
      cases he with
      | head => exact h.1.2.1
      | tail _ he => exact ih h.2 he

theorem Crowd.total_eq {es : List TimerEntry} (h : Crowd due late x k es) : total es = 0 := by
  induction es generalizing k with
  | nil => rfl
  | cons e es ih => rw [total_cons, h.1.1, ih h.2]

/-! ### The schedule -/

/-- When a timer is called if it is called as late as its instant is taken. -/
def callOf (s : Core) (e : TimerEntry) : Nat × Nat :=
  (e.cookie, s.deadline e.cookie + s.ahead e.cookie)

theorem callsAfter_timed (h : Timed s.deadline s.ahead b lead) (r : List TimerEntry) :
    callsAfter b (lead ++ r) = lead.map s.callOf ++ callsAfter (b + total lead) r := by
  induction lead generalizing b with
  | nil => rfl
  | cons e es ih =>
      obtain ⟨⟨hpos, -, hdue, hlate⟩, hrest⟩ := h
      have hcall : s.callOf e = (e.cookie, b + e.time) := by
        rw [callOf, hdue, hlate, Nat.add_zero]
      rw [List.map_cons, hcall, List.cons_append, callsAfter, if_neg hpos.ne', ih hrest,
        total_cons, Nat.add_assoc]
      rfl

theorem callsAfter_crowd (h : Crowd s.deadline s.ahead x k tail) (hmeet : x + k = b + 1) :
    callsAfter b tail = tail.map s.callOf := by
  induction tail generalizing b k with
  | nil => rfl
  | cons e es ih =>
      obtain ⟨⟨hzero, hdue, hlate⟩, hrest⟩ := h
      rw [callsAfter, if_pos hzero, List.map_cons, callOf, hdue, hlate, hmeet,
        ih hrest (by omega)]

theorem Queue.schedule (h : s.Queue b lead tail x k) : s.schedule = s.timers.map s.callOf := by
  have hcalls : callsAfter b s.timers = s.timers.map s.callOf := by
    rw [h.split, callsAfter_timed h.timed, List.map_append, callsAfter_crowd h.crowd h.meet]
  rw [← hcalls, Core.schedule]
  cases htimers : s.timers with
  | nil => rfl
  | cons e es =>
      have hcount := (h.countdown e es htimers).2
      rw [duration] at hcount
      rw [callsAfter, hcount]

/-- No queued timer should have been called. -/
theorem Queue.not_overdue (h : s.Queue b lead tail x k) :
    ∀ c ∈ s.schedule, s.now < c.2 := by
  have hafter : ∀ (es : List TimerEntry) t, s.now ≤ t → ∀ c ∈ callsAfter t es, s.now < c.2 := by
    intro es
    induction es with
    | nil =>
        intro t ht c hc
        cases hc
    | cons e es ih =>
        intro t ht c hc
        have hlt : s.now < t + if e.time = 0 then 1 else e.time := by
          split <;> omega
        cases hc with
        | head => exact hlt
        | tail _ hc => exact ih _ hlt.le c hc
  intro c hc
  rw [Core.schedule] at hc
  split at hc
  · cases hc
  · next e es htimers =>
    have hcount := (h.countdown e es htimers).1
    cases hc with
    | head =>
        show s.now < s.now + s.count
        omega
    | tail _ hc => exact hafter es _ (by omega) c hc

theorem Inv.onTime (h : s.Inv) : s.OnTime := by
  obtain ⟨b, lead, tail, x, k, hq⟩ := h.queue
  refine ⟨h.once, ?_, ?_⟩
  · intro c hc
    have := h.exactly c hc
    omega
  · intro e he
    have hmem : s.callOf e ∈ s.schedule := by
      rw [hq.schedule]
      exact List.mem_map_of_mem he
    exact hq.not_overdue _ hmem

/-! ### Ticks -/

/-- While the count has not run out a tick only moves the time. -/
theorem Queue.wait (h : s.Queue b lead tail x k) {count : Nat} (hcount : s.count = count + 2) :
    { s with now := s.now + 1, count := count + 1 }.Queue b lead tail x k := by
  refine ⟨h.split, h.timed, h.crowd, h.meet, h.late, h.first, Nat.le_succ_of_le h.armed, ?_, ?_⟩
  · intro hnil
    have := h.empty hnil
    omega
  · intro e es htimers
    have := h.countdown e es htimers
    show 0 < count + 1 ∧ b + duration e = s.now + 1 + (count + 1)
    omega

/-- The state in which the function of the first entry is called. -/
def expire (s : Core) : Core := { s with now := s.now + 1, count := 0 }.timerIrqHandler

theorem expire_eq {e : TimerEntry} {rest : List TimerEntry} (h : s.timers = e :: rest) :
    s.expire.timers = rest ∧ s.expire.now = s.now + 1 ∧ s.expire.accepted = s.accepted ∧
      s.expire.called = s.called ++ [(e.cookie, s.now + 1)] ∧
      (rest = [] → s.expire.count = 0) ∧
      ∀ n es, rest = n :: es → s.expire.count = duration n := by
  unfold expire timerIrqHandler
  rw [h]
  refine ⟨rfl, rfl, rfl, rfl, ?_, ?_⟩
  · rintro rfl
    rfl
  · rintro n es rfl
    rfl

/-- Once the first entry is gone the next one is armed, and the queue counts from now. -/
theorem Queue.rearm {e : TimerEntry} (htimers : s.timers = e :: (lead ++ tail))
    (htimed : Timed s.deadline s.ahead (s.now + 1) lead) (hcrowd : Crowd s.deadline s.ahead x k tail)
    (hmeet : x + k = s.now + 1 + total lead + 1) (hlate : 1 ≤ k) (hfirst : lead ≠ [] → k = 1) :
    s.expire.Queue (s.now + 1) lead tail x k := by
  obtain ⟨hrest, hnow, hacc, -, hnil, hcons⟩ := expire_eq htimers
  have hdue : s.expire.deadline = s.deadline := by
    funext i
    rw [deadline, deadline, hacc]
  have hahead : s.expire.ahead = s.ahead := by
    funext i
    rw [ahead, ahead, hacc, hdue]
  refine ⟨hrest, ?_, ?_, hmeet, hlate, hfirst, hnow.ge, ?_, ?_⟩
  · rw [hdue, hahead]
    exact htimed
  · rw [hdue, hahead]
    exact hcrowd
  · intro h
    exact hnil (hrest ▸ h)
  · intro n es h
    rw [hcons n es (hrest ▸ h), hnow]
    refine ⟨?_, rfl⟩
    rw [duration]
    split <;> omega

/-- The entry at the front is called at its time. -/
theorem Queue.pop (h : s.Queue b lead tail x k) {e : TimerEntry} {rest : List TimerEntry}
    (htimers : s.timers = e :: rest) (hcount : s.count = 1) :
    s.deadline e.cookie ≤ s.now + 1 ∧ s.now + 1 = s.deadline e.cookie + s.ahead e.cookie ∧
      ∃ b' lead' tail' x' k', s.expire.Queue b' lead' tail' x' k' := by
  have hdown := (h.countdown e rest htimers).2
  have hmeet := h.meet
  have htimed := h.timed
  have hcrowd := h.crowd
  have hlate := h.late
  rw [hcount, duration] at hdown
  have hsplit := h.split
  rw [htimers] at hsplit
  cases lead with
  | nil =>
      -- Only the crowd is left: its first entry took one tick.
      rw [List.nil_append] at hsplit
      subst hsplit
      obtain ⟨⟨hzero, hdue, hlat⟩, hrest⟩ := hcrowd
      rw [if_pos hzero] at hdown
      rw [total_nil] at hmeet
      refine ⟨by omega, by omega, s.now + 1, [], rest, x, k + 1, ?_⟩
      refine Queue.rearm htimers trivial hrest ?_ (by omega) fun hne => absurd rfl hne
      rw [total_nil]
      omega
  | cons e' lead =>
      rw [List.cons_append] at hsplit
      cases hsplit
      obtain ⟨⟨hpos, -, hdue, hlat⟩, hrest⟩ := htimed
      rw [if_neg hpos.ne'] at hdown
      rw [total_cons] at hmeet
      have hk := h.first (List.cons_ne_nil _ _)
      refine ⟨by omega, by omega, s.now + 1, lead, tail, x, k, ?_⟩
      rw [hdown] at hrest
      exact Queue.rearm htimers hrest hcrowd (by omega) hlate fun _ => hk

theorem Inv.expire (h : s.Inv) {e : TimerEntry} {rest : List TimerEntry}
    (htimers : s.timers = e :: rest) (hcount : s.count = 1) : s.expire.Inv := by
  obtain ⟨b, lead, tail, x, k, hq⟩ := h.queue
  obtain ⟨hpast, hexact, hqueue⟩ := hq.pop htimers hcount
  obtain ⟨hrest, hnow, hacc, hcalled, -⟩ := expire_eq htimers
  have hdue : s.expire.deadline = s.deadline := by
    funext i
    rw [deadline, deadline, hacc]
  have hahead : s.expire.ahead = s.ahead := by
    funext i
    rw [ahead, ahead, hacc, hdue]
  refine ⟨?_, ?_, ?_, hqueue⟩
  · have honce := h.once
    rw [htimers, List.map_cons] at honce
    rw [hcalled, hrest, hacc, List.map_append, List.append_assoc]
    exact honce
  · rw [hcalled, hdue, hnow]
    intro c hc
    rcases List.mem_append.mp hc with hc | hc
    · exact Nat.le_succ_of_le (h.past c hc)
    · rw [List.mem_singleton.mp hc]
      exact hpast
  · rw [hcalled, hdue, hahead]
    intro c hc
    rcases List.mem_append.mp hc with hc | hc
    · exact h.exactly c hc
    · rw [List.mem_singleton.mp hc]
      exact hexact

/-- Without timers the time goes by. -/
theorem Queue.rest (h : s.Queue b lead tail x k) (hcount : s.count = 0) :
    { s with now := s.now + 1 }.Queue (s.now + 1) [] [] (s.now + 1) 1 := by
  have hnil : s.timers = [] := by
    cases htimers : s.timers with
    | nil => rfl
    | cons e es =>
        have := (h.countdown e es htimers).1
        omega
  refine ⟨hnil, trivial, trivial, rfl, le_rfl, fun _ => rfl, le_rfl, fun _ => hcount, ?_⟩
  intro e es htimers
  rw [show s.timers = e :: es from htimers] at hnil
  cases hnil

theorem Inv.rest (h : s.Inv) (hcount : s.count = 0) : { s with now := s.now + 1 }.Inv := by
  obtain ⟨b, lead, tail, x, k, hq⟩ := h.queue
  exact ⟨h.once, fun c hc => Nat.le_succ_of_le (h.past c hc), h.exactly, _, _, _, _, _,
    hq.rest hcount⟩

theorem Inv.wait (h : s.Inv) {count : Nat} (hcount : s.count = count + 2) :
    { s with now := s.now + 1, count := count + 1 }.Inv := by
  obtain ⟨b, lead, tail, x, k, hq⟩ := h.queue
  exact ⟨h.once, fun c hc => Nat.le_succ_of_le (h.past c hc), h.exactly, _, _, _, _, _,
    hq.wait hcount⟩

/-- The count runs out only when a timer is queued. -/
theorem Inv.exists_first (h : s.Inv) (hcount : s.count = 1) :
    ∃ e rest, s.timers = e :: rest := by
  obtain ⟨b, lead, tail, x, k, hq⟩ := h.queue
  cases htimers : s.timers with
  | nil =>
      have := hq.empty htimers
      omega
  | cons e rest => exact ⟨e, rest, rfl⟩

theorem Inv.tick (h : s.Inv) : s.tick.Inv := by
  unfold Core.tick
  split
  · next hcount => exact h.rest hcount
  · next hcount =>
    obtain ⟨e, rest, htimers⟩ := h.exists_first hcount
    exact h.expire htimers hcount
  · next hcount => exact h.wait hcount

/-! ### Where an entry goes -/

theorem place_append {ticks last : Nat} {l : List TimerEntry} (r : List TimerEntry)
    (h : last + total l ≤ ticks) :
    place ticks last (l ++ r) =
      (l.length + (place ticks (last + total l) r).1, (place ticks (last + total l) r).2) := by
  induction l generalizing last with
  | nil => simp
  | cons e es ih =>
      rw [total_cons] at h
      have hstep : place ticks last (e :: es ++ r) =
          ((place ticks (last + e.time) (es ++ r)).1 + 1,
            (place ticks (last + e.time) (es ++ r)).2) :=
        if_pos (by omega)
      rw [hstep, ih (by omega), total_cons, List.length_cons, Nat.add_assoc last]
      simp only [Prod.mk.injEq, and_true]
      omega

theorem place_stop {ticks last : Nat} {rear : List TimerEntry}
    (h : ∀ e es, rear = e :: es → ticks < last + e.time) : place ticks last rear = (0, last) := by
  cases rear with
  | nil => rfl
  | cons e es => exact if_neg (Nat.not_le_of_lt (h e es rfl))

theorem insert_eq {front rear : List TimerEntry} {delayTicks ticks t : Nat}
    (htimers : s.timers = front ++ rear) (ht : (ticks + s.elapsed) % 2 ^ 64 = t)
    (hfront : total front ≤ t) (hrear : ∀ e es, rear = e :: es → t < total front + e.time) :
    s.insert delayTicks ticks =
      if t - total front > 0xFFFFFFFF then (false, s)
      else
        (true, s.accept delayTicks
          (front ++ ⟨s.accepted.length, t - total front⟩ :: lower (t - total front) rear)
          (if front = [] then t - total front else s.count)) := by
  have hplace : place t 0 s.timers = (front.length, total front) := by
    rw [htimers, place_append rear (by omega), Nat.zero_add, place_stop hrear, Nat.add_zero]
  unfold Core.insert
  dsimp only
  rw [ht, hplace, htimers]
  dsimp only
  rw [List.take_left, List.drop_left]
  simp only [List.length_eq_zero_iff]

/-- Ticks that end before the last of the entries end at one of them. -/
theorem exists_place {ticks : Nat} {l : List TimerEntry} (h : ticks < total l) :
    ∃ front e back, l = front ++ e :: back ∧ total front ≤ ticks ∧
      ticks < total front + e.time := by
  induction l generalizing ticks with
  | nil => cases h
  | cons e es ih =>
      rw [total_cons] at h
      by_cases hlt : ticks < e.time
      · exact ⟨[], e, es, rfl, Nat.zero_le _, by rw [total_nil]; omega⟩
      · have hes : ticks - e.time < total es := by omega
        obtain ⟨front, e', back, heq, hle, hlt'⟩ := ih hes
        refine ⟨e :: front, e', back, by rw [heq]; rfl, ?_, ?_⟩
        · rw [total_cons]
          omega
        · rw [total_cons]
          omega

/-! ### Accepting a timer -/

variable {delayTicks count : Nat} {timers : List TimerEntry}

theorem accept_deadline {i : Nat} (hi : i < s.accepted.length) :
    (s.accept delayTicks timers count).deadline i = s.deadline i :=
  List.getD_append _ _ _ _ hi

theorem accept_ahead {i : Nat} (hi : i < s.accepted.length) :
    (s.accept delayTicks timers count).ahead i = s.ahead i := by
  rw [ahead, ahead, accept_deadline hi]
  show ((s.accepted ++ _).take i).count _ = _
  rw [List.take_append_of_le_length hi.le]

theorem accept_deadline_new :
    (s.accept delayTicks timers count).deadline s.accepted.length =
      s.now + max 1 delayTicks := by
  show (s.accepted ++ [_]).getD s.accepted.length 0 = _
  rw [List.getD_append_right _ _ _ _ le_rfl, Nat.sub_self]
  rfl

theorem accept_ahead_new :
    (s.accept delayTicks timers count).ahead s.accepted.length =
      s.accepted.count (s.now + max 1 delayTicks) := by
  rw [ahead, accept_deadline_new]
  show ((s.accepted ++ [_]).take s.accepted.length).count _ = _
  rw [List.take_left]

theorem Inv.called_lt (h : s.Inv) {c : Nat × Nat} (hc : c ∈ s.called) :
    c.1 < s.accepted.length :=
  List.mem_range.mp (h.once.mem_iff.mp (List.mem_append_left _ (List.mem_map_of_mem hc)))

theorem Inv.cookie_lt (h : s.Inv) {e : TimerEntry} (he : e ∈ s.timers) :
    e.cookie < s.accepted.length :=
  List.mem_range.mp (h.once.mem_iff.mp (List.mem_append_right _ (List.mem_map_of_mem he)))

/-- The timers due at an instant to come are all queued. -/
theorem Inv.count_accepted (h : s.Inv) {instant : Nat} (hlater : s.now < instant) :
    s.accepted.count instant = s.pending.count instant := by
  have hall : (List.range s.accepted.length).map s.deadline = s.accepted := by
    refine List.ext_getElem (by simp) fun i h₁ h₂ => ?_
    rw [List.getElem_map, List.getElem_range, deadline, List.getD_eq_getElem _ _ h₂]
  have hperm := h.once.map s.deadline
  rw [hall, List.map_append, List.map_map, List.map_map] at hperm
  have hpast : (s.called.map (s.deadline ∘ Prod.fst)).count instant = 0 := by
    refine List.count_eq_zero.mpr fun hmem => ?_
    obtain ⟨c, hc, rfl⟩ := List.mem_map.mp hmem
    exact absurd (h.past c hc) (Nat.not_le_of_lt hlater)
  rw [← hperm.count_eq, List.count_append, hpast, Nat.zero_add]
  rfl

/-- The new state holds the same timers and the new one, and its queue is sound. -/
theorem Inv.accept (h : s.Inv)
    (hperm : (timers.map TimerEntry.cookie).Perm
      (s.accepted.length :: s.timers.map TimerEntry.cookie))
    (hqueue : ∃ b lead tail x k, (s.accept delayTicks timers count).Queue b lead tail x k) :
    (s.accept delayTicks timers count).Inv := by
  refine ⟨?_, ?_, ?_, hqueue⟩
  · show (s.called.map Prod.fst ++ timers.map TimerEntry.cookie).Perm
      (List.range (s.accepted ++ [_]).length)
    rw [List.length_append, List.length_singleton, List.range_succ]
    have hmiddle : (s.called.map Prod.fst ++ timers.map TimerEntry.cookie).Perm
        (s.accepted.length :: (s.called.map Prod.fst ++ s.timers.map TimerEntry.cookie)) :=
      (hperm.append_left _).trans List.perm_middle
    exact hmiddle.trans ((h.once.cons _).trans (List.perm_append_singleton _ _).symm)
  · intro c hc
    rw [accept_deadline (h.called_lt hc)]
    exact h.past c hc
  · intro c hc
    rw [accept_deadline (h.called_lt hc), accept_ahead (h.called_lt hc)]
    exact h.exactly c hc

/-- Then the timers of before are called when they were to be called. -/
theorem Inv.schedule_accept (h : s.Inv)
    (hperm : (timers.map TimerEntry.cookie).Perm
      (s.accepted.length :: s.timers.map TimerEntry.cookie))
    (h' : (s.accept delayTicks timers count).Inv) :
    s.schedule ⊆ (s.accept delayTicks timers count).schedule := by
  obtain ⟨_, _, _, _, _, hq⟩ := h.queue
  obtain ⟨_, _, _, _, _, hq'⟩ := h'.queue
  rw [hq.schedule, hq'.schedule]
  intro c hc
  obtain ⟨e, he, rfl⟩ := List.mem_map.mp hc
  have hmem : e.cookie ∈ timers.map TimerEntry.cookie :=
    hperm.mem_iff.mpr (List.mem_cons_of_mem _ (List.mem_map_of_mem he))
  obtain ⟨e', he', hcookie⟩ := List.mem_map.mp hmem
  refine List.mem_map.mpr ⟨e', he', ?_⟩
  rw [callOf, callOf, hcookie, accept_deadline (h.cookie_lt he), accept_ahead (h.cookie_lt he)]

theorem Timed.accept (h : s.Inv) {es : List TimerEntry} (hes : ∀ e ∈ es, e ∈ s.timers)
    (ht : Timed s.deadline s.ahead b es) :
    Timed (s.accept delayTicks timers count).deadline (s.accept delayTicks timers count).ahead
      b es :=
  ht.congr fun e he =>
    ⟨accept_deadline (h.cookie_lt (hes e he)), accept_ahead (h.cookie_lt (hes e he))⟩

theorem Crowd.accept (h : s.Inv) {es : List TimerEntry} (hes : ∀ e ∈ es, e ∈ s.timers)
    (hc : Crowd s.deadline s.ahead x k es) :
    Crowd (s.accept delayTicks timers count).deadline (s.accept delayTicks timers count).ahead
      x k es :=
  hc.congr fun e he =>
    ⟨accept_deadline (h.cookie_lt (hes e he)), accept_ahead (h.cookie_lt (hes e he))⟩

/-- Behind the first entry the queue changes without the countdown. -/
theorem Queue.same_countdown (hq : s.Queue b lead tail x k) {e : TimerEntry}
    {es rest : List TimerEntry} (hold : s.timers = e :: es) (hnew : timers = e :: rest) :
    ∀ e' es', timers = e' :: es' →
      0 < s.count ∧ b + duration e' = s.now + s.count := by
  intro e' es' heq
  rw [hnew] at heq
  cases heq
  exact hq.countdown e es hold

/-- The last of the entries with instants of their own is due where they end. -/
theorem Timed.exists_last {es : List TimerEntry} (h : Timed due late b es) (hne : es ≠ []) :
    ∃ e ∈ es, due e.cookie = b + total es := by
  induction es generalizing b with
  | nil => exact absurd rfl hne
  | cons e es ih =>
      obtain ⟨⟨-, -, hdue, -⟩, hrest⟩ := h
      cases es with
      | nil => exact ⟨e, List.mem_cons_self, hdue⟩
      | cons e' es =>
          obtain ⟨l, hl, hlast⟩ := ih hrest (List.cons_ne_nil _ _)
          rw [Nat.add_assoc] at hlast
          exact ⟨l, List.mem_cons_of_mem _ hl, hlast⟩

/-- It alone is. -/
theorem Timed.count_last {es : List TimerEntry} (h : Timed due late b es) (hne : es ≠ []) :
    (es.map fun e => due e.cookie).count (b + total es) = 1 := by
  induction es generalizing b with
  | nil => exact absurd rfl hne
  | cons e es ih =>
      obtain ⟨⟨-, -, hdue, -⟩, hrest⟩ := h
      cases es with
      | nil =>
          show [due e.cookie].count (b + e.time) = 1
          rw [hdue, List.count_singleton_self]
      | cons e' es =>
          have hlt : due e.cookie ≠ b + total (e :: e' :: es) := by
            have hpos := hrest.1.1
            rw [hdue, total_cons, total_cons]
            omega
          rw [List.map_cons, List.count_cons_of_ne hlt, total_cons, ← Nat.add_assoc]
          exact ih hrest (List.cons_ne_nil _ _)

theorem Crowd.count_eq (h : Crowd due late x k tail) :
    (tail.map fun e => due e.cookie).count x = tail.length := by
  induction tail generalizing k with
  | nil => rfl
  | cons e es ih =>
      rw [List.map_cons, h.1.2.1, List.count_cons_self, ih h.2, List.length_cons]

theorem pending_eq (h : s.timers = lead ++ tail) :
    s.pending = (lead.map fun e => s.deadline e.cookie) ++ tail.map fun e => s.deadline e.cookie := by
  rw [pending, h, List.map_append]

/-- While entries with instants of their own are left, the elapsed time is that since the
arming. -/
theorem Queue.elapsed_eq (hq : s.Queue b lead tail x k) (hne : lead ≠ []) :
    s.elapsed = s.now - b := by
  cases lead with
  | nil => exact absurd rfl hne
  | cons e es =>
      have htimers := hq.split
      rw [List.cons_append] at htimers
      obtain ⟨hcount, hdown⟩ := hq.countdown e _ htimers
      obtain ⟨⟨hpos, hlt, -⟩, -⟩ := hq.timed
      have harmed := hq.armed
      rw [duration, if_neg hpos.ne'] at hdown
      have helapsed : s.elapsed = (e.time + 2 ^ 32 - s.count) % 2 ^ 32 := by
        rw [Core.elapsed, htimers]
      omega

theorem elapsed_lt (s : Core) : s.elapsed < 2 ^ 32 := by
  rw [elapsed]
  split
  · exact Nat.two_pow_pos 32
  · exact Nat.mod_lt _ (Nat.two_pow_pos 32)

/-- A crowd that is left alone is late. -/
theorem Queue.crowd_elapsed (hq : s.Queue b [] tail x k) (hne : tail ≠ []) :
    s.elapsed = 2 ^ 32 - 1 := by
  cases tail with
  | nil => exact absurd rfl hne
  | cons e es =>
      have htimers := hq.split
      rw [List.nil_append] at htimers
      obtain ⟨hcount, hdown⟩ := hq.countdown e _ htimers
      have hzero := hq.crowd.1.1
      have harmed := hq.armed
      rw [duration, if_pos hzero] at hdown
      have helapsed : s.elapsed = (e.time + 2 ^ 32 - s.count) % 2 ^ 32 := by
        rw [Core.elapsed, htimers]
      omega

/-- No queued timer is due before the first one. -/
theorem Queue.first_le {r : TimerEntry} {back : List TimerEntry}
    (hq : s.Queue b (r :: back) tail x k) : ∀ y ∈ s.pending, b + r.time ≤ y := by
  obtain ⟨⟨-, -, hrdue, -⟩, hback⟩ := hq.timed
  have hmeet := hq.meet
  have hk := hq.first (List.cons_ne_nil _ _)
  rw [total_cons] at hmeet
  intro y hy
  rw [pending_eq hq.split] at hy
  rcases List.mem_append.mp hy with hy | hy
  · obtain ⟨e, he, rfl⟩ := List.mem_map.mp hy
    cases he with
    | head => exact hrdue.ge
    | tail _ he => exact (hback.bounds he).1.le
  · obtain ⟨e, he, rfl⟩ := List.mem_map.mp hy
    rw [hq.crowd.due_eq he]
    omega

/-- While one with an instant of its own is left none is late. -/
theorem Queue.now_lt (hq : s.Queue b lead tail x k) (hne : lead ≠ []) :
    ∀ y ∈ s.pending, s.now < y := by
  cases lead with
  | nil => exact absurd rfl hne
  | cons r back =>
      intro y hy
      have hle := hq.first_le y hy
      obtain ⟨hcount, hdown⟩ := hq.countdown r _ hq.split
      rw [duration, if_neg hq.timed.1.1.ne'] at hdown
      omega

/-! ### The three places -/

/-- After the last entry. -/
theorem Queue.extend (h : s.Inv) (hq : s.Queue b lead [] x k) (hne : lead ≠ []) {diff : Nat}
    (hdiff : 0 < diff) (hlt : diff < 2 ^ 32)
    (hdue : s.now + max 1 delayTicks = b + total lead + diff)
    (htimers : timers = lead ++ [⟨s.accepted.length, diff⟩]) :
    ∃ b lead tail x k, (s.accept delayTicks timers s.count).Queue b lead tail x k := by
  have hsplit := hq.split
  rw [List.append_nil] at hsplit
  have htimed : Timed (s.accept delayTicks timers s.count).deadline
      (s.accept delayTicks timers s.count).ahead b lead :=
    hq.timed.accept h fun e he => hsplit ▸ he
  have hnone : s.accepted.count (s.now + max 1 delayTicks) = 0 := by
    rw [h.count_accepted (by omega), List.count_eq_zero]
    intro hmem
    rw [pending, hsplit] at hmem
    obtain ⟨e, he, heq⟩ := List.mem_map.mp hmem
    have := (hq.timed.bounds he).2
    omega
  refine ⟨b, timers, [], b + total timers, 1, (List.append_nil _).symm, ?_, trivial, rfl, le_rfl,
    fun _ => rfl, hq.armed, ?_, ?_⟩
  · rw [htimers] at htimed ⊢
    refine timed_append.mpr ⟨htimed, ⟨hdiff, hlt, ?_, ?_⟩, trivial⟩
    · rw [accept_deadline_new, hdue]
    · rw [accept_ahead_new, hnone]
  · intro hnil
    rw [show timers = [] from hnil] at htimers
    simp at htimers
  · cases lead with
    | nil => exact absurd rfl hne
    | cons e es => exact hq.same_countdown hsplit htimers

/-- With the last entry. -/
theorem Queue.join (h : s.Inv) (hq : s.Queue b lead tail x k) (hne : lead ≠ [])
    (hdue : s.now + max 1 delayTicks = b + total lead)
    (htimers : timers = lead ++ tail ++ [⟨s.accepted.length, 0⟩]) :
    ∃ b lead tail x k, (s.accept delayTicks timers s.count).Queue b lead tail x k := by
  have hk := hq.first hne
  have hmeet := hq.meet
  have hx : x = b + total lead := by omega
  have htimed : Timed (s.accept delayTicks timers s.count).deadline
      (s.accept delayTicks timers s.count).ahead b lead :=
    hq.timed.accept h fun e he => hq.split ▸ List.mem_append_left _ he
  have hcrowd : Crowd (s.accept delayTicks timers s.count).deadline
      (s.accept delayTicks timers s.count).ahead x k tail :=
    hq.crowd.accept h fun e he => hq.split ▸ List.mem_append_right _ he
  have hcount : s.accepted.count (s.now + max 1 delayTicks) = k + tail.length := by
    rw [h.count_accepted (by omega), pending_eq hq.split, List.count_append, hdue,
      hq.timed.count_last hne, ← hx, hq.crowd.count_eq, hk]
  refine ⟨b, lead, tail ++ [⟨s.accepted.length, 0⟩], x, k, ?_, htimed, ?_, hmeet, hq.late,
    hq.first, hq.armed, ?_, ?_⟩
  · rw [← List.append_assoc]
    exact htimers
  · refine crowd_append.mpr ⟨hcrowd, ⟨rfl, ?_, ?_⟩, trivial⟩
    · rw [accept_deadline_new, hdue, hx]
    · rw [accept_ahead_new, hcount]
  · intro hnil
    rw [show timers = [] from hnil] at htimers
    simp at htimers
  · have hsplit := hq.split
    cases lead with
    | nil => exact absurd rfl hne
    | cons e es =>
        rw [List.append_assoc] at htimers
        exact hq.same_countdown hsplit htimers

/-- Before an entry with an instant of its own. -/
theorem Queue.between (h : s.Inv) {front back : List TimerEntry} {r : TimerEntry}
    (hq : s.Queue b (front ++ r :: back) tail x k) {diff : Nat} (hdiff : 0 < diff)
    (hlt : diff < r.time) (hdue : s.now + max 1 delayTicks = b + total front + diff)
    (hfree : s.now + max 1 delayTicks ∉ s.pending)
    (hfirst : front = [] → b = s.now ∧ count = diff) (hcount : front ≠ [] → count = s.count)
    (htimers : timers = front ++ ⟨s.accepted.length, diff⟩ :: lower diff (r :: back ++ tail)) :
    ∃ b lead tail x k, (s.accept delayTicks timers count).Queue b lead tail x k := by
  have hmem : ∀ e ∈ front ++ r :: back, e ∈ s.timers := fun e he =>
    hq.split ▸ List.mem_append_left _ he
  have hmeet := hq.meet
  have hnone : s.accepted.count (s.now + max 1 delayTicks) = 0 := by
    rw [h.count_accepted (by omega)]
    exact List.count_eq_zero.mpr hfree
  have htimed : Timed (s.accept delayTicks timers count).deadline
      (s.accept delayTicks timers count).ahead b (front ++ r :: back) :=
    hq.timed.accept h hmem
  obtain ⟨htf, ⟨hr, htb⟩⟩ := timed_append.mp htimed
  obtain ⟨hrpos, hrlt, hrdue, hrlate⟩ := hr
  have hlower : (r.time + 2 ^ 32 - diff) % 2 ^ 32 = r.time - diff := by omega
  have htimers' : timers =
      (front ++ ⟨s.accepted.length, diff⟩ :: ⟨r.cookie, r.time - diff⟩ :: back) ++ tail := by
    rw [htimers, List.cons_append, lower, hlower]
    simp
  refine ⟨b, _, tail, x, k, htimers', ?_, ?_, ?_, hq.late, fun _ => hq.first ?_, hq.armed,
    ?_, ?_⟩
  · refine timed_append.mpr ⟨htf, ⟨hdiff, hlt.trans hrlt, ?_, ?_⟩,
      ⟨Nat.sub_pos_of_lt hlt, (Nat.sub_le _ _).trans_lt hrlt, ?_, hrlate⟩, ?_⟩
    · rw [accept_deadline_new, hdue]
    · rw [accept_ahead_new, hnone]
    · rw [hrdue]
      show b + total front + r.time = b + total front + diff + (r.time - diff)
      omega
    · have hend : b + total front + diff + (r.time - diff) = b + total front + r.time := by omega
      show Timed _ _ (b + total front + diff + (r.time - diff)) back
      rw [hend]
      exact htb
  · exact hq.crowd.accept h fun e he => hq.split ▸ List.mem_append_right _ he
  · rw [hmeet]
    simp only [total_append, total_cons]
    omega
  · simp
  · intro hnil
    rw [show timers = [] from hnil] at htimers
    simp at htimers
  · intro e es heq
    cases front with
    | nil =>
        obtain ⟨hb, hc⟩ := hfirst rfl
        rw [show timers = e :: es from heq, List.nil_append] at htimers
        cases htimers
        show 0 < count ∧ b + duration ⟨s.accepted.length, diff⟩ = s.now + count
        rw [duration, if_neg hdiff.ne', hb, hc]
        exact ⟨hdiff, rfl⟩
    | cons e' front =>
        show 0 < count ∧ b + duration e = s.now + count
        rw [hcount (List.cons_ne_nil _ _)]
        exact hq.same_countdown hq.split htimers e es heq

/-! ### Calls of `Enqueue` -/

/-- What a call that meets the condition keeps. -/
def Kept (s : Core) (r : Bool × Core) : Prop := r.2.Inv ∧ s.schedule ⊆ r.2.schedule

theorem Kept.refused (h : s.Inv) : s.Kept (false, s) := ⟨h, fun _ hc => hc⟩

theorem Kept.accepted (h : s.Inv)
    (hperm : (timers.map TimerEntry.cookie).Perm
      (s.accepted.length :: s.timers.map TimerEntry.cookie))
    (hqueue : ∃ b lead tail x k, (s.accept delayTicks timers count).Queue b lead tail x k) :
    s.Kept (true, s.accept delayTicks timers count) :=
  ⟨h.accept hperm hqueue, h.schedule_accept hperm (h.accept hperm hqueue)⟩

theorem perm_insert {front rear : List TimerEntry} {n diff : Nat} :
    ((front ++ ⟨n, diff⟩ :: lower diff rear).map TimerEntry.cookie).Perm
      (n :: (front ++ rear).map TimerEntry.cookie) := by
  have hlower : (lower diff rear).map TimerEntry.cookie = rear.map TimerEntry.cookie := by
    cases rear with
    | nil => rfl
    | cons e es => rw [lower, List.map_cons, List.map_cons]
  rw [List.map_append, List.map_cons, hlower, List.map_append]
  exact List.perm_middle

/-- When a queued timer is late already, the call is refused. -/
theorem Queue.insert_late (hq : s.Queue b [] tail x k) (hne : tail ≠ []) {ticks : Nat}
    (hticks : 0 < ticks) (hlt : ticks + s.elapsed < 2 ^ 64) :
    s.insert delayTicks ticks = (false, s) := by
  have hzero := hq.crowd.total_eq
  have helapsed := hq.crowd_elapsed hne
  have hsplit : s.timers = tail ++ [] := by
    rw [List.append_nil]
    exact hq.split
  rw [insert_eq hsplit (Nat.mod_eq_of_lt hlt) (by omega) (fun _ _ h => by cases h)]
  exact if_pos (by omega)

/-- Where there is room for the instant the timer goes to its place. -/
theorem Queue.insert_kept (h : s.Inv) (hq : s.Queue b lead tail x k) (hne : lead ≠ [])
    (hlt : max 1 delayTicks + s.elapsed < 2 ^ 64) (hroom : s.Room (s.now + max 1 delayTicks)) :
    s.Kept (s.insert delayTicks (max 1 delayTicks)) := by
  have hk := hq.first hne
  have hmeet := hq.meet
  have harmed := hq.armed
  have helapsed := hq.elapsed_eq hne
  have hzero := hq.crowd.total_eq
  have hpending := pending_eq hq.split
  have hmod := Nat.mod_eq_of_lt hlt
  obtain ⟨l, hl, hlast⟩ := hq.timed.exists_last hne
  have hlmem : b + total lead ∈ s.pending := by
    rw [← hlast]
    exact List.mem_map_of_mem (hq.split ▸ List.mem_append_left _ hl)
  rcases Nat.lt_trichotomy (s.now + max 1 delayTicks) (b + total lead) with hbefore | hwith | hafter
  · -- Before the last instant: somewhere among the entries with instants of their own.
    have hfree : s.now + max 1 delayTicks ∉ s.pending := fun hmem =>
      absurd (hroom.taken hmem _ hlmem) (by omega)
    have hwithin : max 1 delayTicks + s.elapsed < total lead := by omega
    obtain ⟨front, r, back, rfl, hle, hstop⟩ := exists_place hwithin
    have hsplit : s.timers = front ++ (r :: back ++ tail) := by
      rw [hq.split, List.append_assoc]
    have hrlt := (timed_append.mp hq.timed).2.1.2.1
    rw [insert_eq hsplit hmod hle fun e es heq => by cases heq; exact hstop, if_neg (by omega)]
    have hdiff : 0 < max 1 delayTicks + s.elapsed - total front := by
      cases front with
      | nil =>
          rw [total_nil]
          omega
      | cons e es =>
          obtain ⟨l', hl', hlast'⟩ := (timed_append.mp hq.timed).1.exists_last
            (List.cons_ne_nil e es)
          have hmem' : b + total (e :: es) ∈ s.pending := by
            rw [← hlast']
            exact List.mem_map_of_mem (hsplit ▸ List.mem_append_left _ hl')
          have hne' : s.now + max 1 delayTicks ≠ b + total (e :: es) := by
            intro heq
            rw [heq] at hfree
            exact hfree hmem'
          omega
    refine Kept.accepted h (hsplit ▸ perm_insert) ?_
    refine Queue.between h hq hdiff (by omega) (by omega) hfree ?_ ?_ rfl
    · intro hfront
      have hnow : s.elapsed = 0 := by
        refine hroom.front ?_
        intro y hy
        subst hfront
        have hle := hq.first_le y hy
        rw [total_nil] at hstop
        omega
      rw [if_pos hfront]
      exact ⟨by omega, rfl⟩
    · intro hfront
      exact if_neg hfront
  · -- With the last instant: at the end of the crowd.
    have hsplit : s.timers = (lead ++ tail) ++ [] := by
      rw [List.append_nil]
      exact hq.split
    have htotal : total (lead ++ tail) = max 1 delayTicks + s.elapsed := by
      rw [total_append]
      omega
    rw [insert_eq hsplit hmod htotal.le (fun _ _ heq => by cases heq), htotal, Nat.sub_self,
      if_neg (by omega), if_neg (by simp [hne])]
    refine Kept.accepted h (hsplit ▸ perm_insert) ?_
    exact Queue.join h hq hne hwith rfl
  · -- After the last instant, which is not taken twice or too far away.
    have hsplit : s.timers = (lead ++ tail) ++ [] := by
      rw [List.append_nil]
      exact hq.split
    have htotal : total (lead ++ tail) = total lead := by
      rw [total_append, hzero, Nat.add_zero]
    rw [insert_eq hsplit hmod (by omega) fun _ _ heq => by cases heq]
    split
    · exact Kept.refused h
    · next hnear =>
      have htail : tail = [] := by
        cases tail with
        | nil => rfl
        | cons e es =>
            have hx : x = b + total lead := by omega
            have htwo : 2 ≤ s.pending.count (b + total lead) := by
              rw [hpending, List.count_append, hq.timed.count_last hne, ← hx, hq.crowd.count_eq,
                List.length_cons]
              omega
            rcases hroom.shared _ htwo with hle | hfar
            · omega
            · omega
      subst htail
      rw [if_neg (by simp [hne])]
      refine Kept.accepted h (hsplit ▸ perm_insert) ?_
      rw [List.append_nil] at htotal hnear ⊢
      exact Queue.extend h hq hne (by omega) (by omega) (by omega) rfl

/-- The first timer of a core is armed. -/
theorem Inv.single (h : s.Inv) (hnil : s.timers = [])
    (hlt : max 1 delayTicks < 2 ^ 32) :
    s.Kept (true, s.accept delayTicks [⟨s.accepted.length, max 1 delayTicks⟩]
      (max 1 delayTicks)) := by
  have hpos : 0 < max 1 delayTicks := by omega
  have hnone : s.accepted.count (s.now + max 1 delayTicks) = 0 := by
    rw [h.count_accepted (by omega), pending, hnil]
    rfl
  refine Kept.accepted h (by rw [hnil]; rfl) ?_
  refine ⟨s.now, [⟨s.accepted.length, max 1 delayTicks⟩], [],
    s.now + max 1 delayTicks, 1, rfl, ⟨⟨hpos, hlt, accept_deadline_new, ?_⟩, trivial⟩, trivial,
    rfl, le_rfl, fun _ => rfl, le_rfl, ?_, ?_⟩
  · rw [accept_ahead_new, hnone]
  · intro h'
    cases h'
  · intro e es heq
    cases heq
    show 0 < max 1 delayTicks ∧ s.now + duration ⟨_, max 1 delayTicks⟩ = s.now + max 1 delayTicks
    rw [duration, if_neg hpos.ne']
    exact ⟨hpos, rfl⟩

theorem Inv.enqueue {tpm delay : Nat} (h : s.Inv) (hfit : Fit tpm s delay) :
    s.Kept (s.enqueue tpm delay) := by
  obtain ⟨b, lead, tail, x, k, hq⟩ := h.queue
  unfold Core.enqueue
  dsimp only
  split
  · exact Kept.refused h
  · next hfull =>
    obtain ⟨hlt, hplace⟩ := hfit.resolve_left hfull
    have hticks : (if delay * tpm % 2 ^ 64 = 0 then 1 else delay * tpm % 2 ^ 64) =
        max 1 (delay * tpm) := by
      rw [Nat.mod_eq_of_lt (by omega)]
      split <;> omega
    rw [hticks]
    split
    · next hpos =>
      cases lead with
      | nil =>
          have hne : tail ≠ [] := by
            rintro rfl
            rw [hq.split] at hpos
            exact absurd hpos (Nat.lt_irrefl 0)
          have helapsed := hq.crowd_elapsed hne
          rw [hq.insert_late hne (by omega) (by omega)]
          exact Kept.refused h
      | cons e es =>
          have hne : e :: es ≠ [] := List.cons_ne_nil e es
          have hsmall := s.elapsed_lt
          have hroom := hplace.resolve_left fun ⟨y, hy, hpast⟩ =>
            absurd hpast (Nat.not_le_of_lt (hq.now_lt hne y hy))
          exact hq.insert_kept h hne (by omega) hroom
    · next hpos =>
      have hnil : s.timers = [] := List.length_eq_zero_iff.mp (by omega)
      split
      · exact Kept.refused h
      · exact h.single hnil (by omega)

/-- The schedule is what happens: a tick calls what the schedule has for it, and no more. -/
theorem Inv.tick_schedule (h : s.Inv) :
    s.tick.called ++ s.tick.schedule = s.called ++ s.schedule := by
  obtain ⟨b, lead, tail, x, k, hq⟩ := h.queue
  have hsame : ∀ s' : Core, s'.Inv → s'.accepted = s.accepted →
      s'.schedule = s'.timers.map s.callOf := by
    intro s' h' hacc
    obtain ⟨_, _, _, _, _, hq'⟩ := h'.queue
    rw [hq'.schedule]
    refine List.map_congr_left fun e _ => ?_
    rw [callOf, callOf, ahead, ahead, deadline, deadline, hacc]
  rw [hsame s h rfl]
  unfold Core.tick
  split
  · next hcount => rw [hsame _ (h.rest hcount) rfl]
  · next hcount =>
    obtain ⟨e, rest, htimers⟩ := h.exists_first hcount
    obtain ⟨hrest, -, hacc, hcalled, -⟩ := expire_eq htimers
    obtain ⟨-, hexact, -⟩ := hq.pop htimers hcount
    show s.expire.called ++ s.expire.schedule = _
    rw [hsame _ (h.expire htimers hcount) hacc, hrest, hcalled, htimers, List.map_cons,
      List.append_assoc, callOf, ← hexact]
    rfl
  · next hcount => rw [hsame _ (h.wait hcount) rfl]

end Core

/-! ## Runs -/

variable {tpm : Nat}

theorem Core.Inv.init : Core.init.Inv := by
  refine ⟨by rfl, ?_, ?_, 0, [], [], 0, 1, ?_⟩
  · intro c hc
    cases hc
  · intro c hc
    cases hc
  · refine ⟨rfl, trivial, trivial, rfl, le_rfl, fun _ => rfl, le_rfl, fun _ => rfl, ?_⟩
    intro e es h
    cases h

theorem Reachable.inv {s : Core} (h : Reachable tpm (Core.Fit tpm) s) : s.Inv := by
  induction h with
  | init => exact Core.Inv.init
  | enqueue delay _ hfit ih => exact (ih.enqueue hfit).1
  | tick _ ih => exact ih.tick

/-- In a run whose calls of `Enqueue` have room for what they ask, timers are called on time and
no call delays another timer. -/
theorem Reachable.on_time {s : Core} (h : Reachable tpm (Core.Fit tpm) s) :
    s.OnTime ∧ ∀ delay, Core.Fit tpm s delay → s.Undisturbed tpm delay :=
  ⟨h.inv.onTime, fun _ hfit => (h.inv.enqueue hfit).2⟩

theorem Reachable.on_time_two : ∃ s : Core, s.timers.length = 2 ∧ s.now = 1 ∧
    s.OnTime ∧ ∀ delay, Core.Fit 1 s delay → s.Undisturbed 1 delay := by
  have hone : Core.Fit 1 .init 10 := by
    refine Or.inr ⟨by decide, Or.inr ⟨fun _ => rfl, fun h => ?_, fun x h => ?_⟩⟩
    · cases h
    · cases h
  have htwo : Core.Fit 1 (Core.init.perform 1 (.enqueue 10)) 20 := by
    have hpending : (Core.init.perform 1 (.enqueue 10)).pending = [10] := by decide
    refine Or.inr ⟨by decide, Or.inr ⟨fun _ => by decide, ?_, ?_⟩⟩
    · rw [hpending]
      decide
    · intro x hx
      rw [hpending] at hx
      have := hx.trans List.count_le_length
      exact absurd this (by decide)
  exact ⟨_, by decide, by decide,
    Reachable.on_time (Reachable.tick (Reachable.enqueue 20 (Reachable.enqueue 10 .init hone) htwo))⟩

/-- A timer queued before one that is under way is late by the time that one has run. -/
theorem Reachable.late_front : ¬ ∀ (tpm : Nat) (s : Core), Reachable tpm (fun _ _ => True) s →
    s.OnTime ∧ ∀ delay, s.Undisturbed tpm delay := by
  intro hclaim
  have h₁ : Reachable 1 (fun _ _ => True) _ := Reachable.enqueue 10 .init trivial
  have h₂ := Reachable.enqueue 2 h₁.tick.tick.tick.tick trivial
  have hqueued := (hclaim 1 _ h₂.tick.tick).1.queued ⟨1, 6⟩ (by decide)
  exact absurd hqueued (by decide)

end Timer

end Beelzebub
