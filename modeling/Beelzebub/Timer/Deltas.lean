import Beelzebub.Timer

/-!
# The delta list of a core

An entry counts from the one before it, so it is due at the sum of the deltas up to it, counted
from the last arming of the first one.  `Enqueue` puts an entry behind all that are due no later
and shortens the delta of the next one.

The list is any one that the fields can hold, with any count that the first entry leaves.
-/

namespace Beelzebub.Timer

/-- The entries with the sums of the deltas up to them, from `acc` on. -/
def sums : Nat → List TimerEntry → List (Nat × Nat)
  | _, [] => []
  | acc, e :: es => (e.cookie, acc + e.time) :: sums (acc + e.time) es

namespace Core

/-- `ticks`, before the elapsed time is added. -/
def delayTicks (tpm delay : Nat) : Nat :=
  if delay * tpm % 2 ^ 64 = 0 then 1 else delay * tpm % 2 ^ 64

/-- When the new entry is due: `ticks + MyTimers[0].Time - c`. -/
def target (tpm delay : Nat) (s : Core) : Nat :=
  delayTicks tpm delay +
    match s.timers with
    | [] => 0
    | e :: _ => e.time - s.count

/-- What the fields can hold. -/
structure Fits (s : Core) : Prop where
  length : s.timers.length ≤ maxCount
  time : ∀ e ∈ s.timers, e.time < 2 ^ 32
  count : ∀ e ∈ s.timers.head?, s.count ≤ e.time

/-- The entries in front of a new one and behind it. -/
structure Between (target : Nat) (front rear : List TimerEntry) (s : Core) : Prop where
  timers : s.timers = front ++ rear
  before : ∀ p ∈ sums 0 front, p.2 ≤ target
  after : ∀ p ∈ sums (total front) rear, target < p.2

/-- The new entry is between the others, which are due when they were, and no delta was too short
to be shortened. -/
structure Inserted (target : Nat) (front rear : List TimerEntry) (s s' : Core) : Prop where
  sums : sums 0 s'.timers =
    sums 0 front ++ (s.accepted.length, target) :: sums (total front) rear
  shortened : ∀ e ∈ rear.head?, target - total front ≤ e.time
  time : ∀ e ∈ s'.timers, e.time < 2 ^ 32
  length : s'.timers.length = s.timers.length + 1 ∧ s'.timers.length ≤ maxCount

/-- `Enqueue` refuses if the list is full or the gap does not fit, and inserts otherwise. -/
def Maintained (tpm delay : Nat) (s : Core) : Prop :=
  ∃ front rear, Between (s.target tpm delay) front rear s ∧
    if s.timers.length = maxCount ∨ 2 ^ 32 ≤ s.target tpm delay - total front then
      s.enqueue tpm delay = (false, s)
    else
      (s.enqueue tpm delay).1 = true ∧
        Inserted (s.target tpm delay) front rear s (s.enqueue tpm delay).2

variable {s : Core} {tpm delay acc diff t : Nat} {l front rear : List TimerEntry} {e : TimerEntry}

/-! ## Sums -/

theorem sums_append (r : List TimerEntry) :
    sums acc (l ++ r) = sums acc l ++ sums (acc + total l) r := by
  induction l generalizing acc with
  | nil => rfl
  | cons e es ih =>
      show (e.cookie, acc + e.time) :: sums (acc + e.time) (es ++ r) = _
      rw [ih, total_cons, Nat.add_assoc]
      rfl

theorem sums_bounds {p : Nat × Nat} (hp : p ∈ sums acc l) : acc ≤ p.2 ∧ p.2 ≤ acc + total l := by
  induction l generalizing acc with
  | nil => cases hp
  | cons e es ih =>
      rw [total_cons]
      rcases List.mem_cons.mp hp with rfl | hp
      · dsimp only
        omega
      · have := ih hp
        omega

/-- An entry that is shortened and counts from later is due when it was. -/
theorem sums_lower (acc : Nat) (hle : ∀ e ∈ l.head?, diff ≤ e.time) (htime : ∀ e ∈ l, e.time < 2 ^ 32) :
    sums (acc + diff) (lower diff l) = sums acc l ∧ ∀ e ∈ lower diff l, e.time < 2 ^ 32 := by
  cases l with
  | nil => exact ⟨rfl, nofun⟩
  | cons e es =>
      have hdiff := hle e rfl
      have he := htime e List.mem_cons_self
      have hsame : (e.time + 2 ^ 32 - diff) % 2 ^ 32 = e.time - diff := by omega
      have hsum : acc + diff + (e.time - diff) = acc + e.time := by omega
      constructor
      · show (e.cookie, acc + diff + (e.time + 2 ^ 32 - diff) % 2 ^ 32) ::
          sums (acc + diff + (e.time + 2 ^ 32 - diff) % 2 ^ 32) es = _
        rw [hsame, hsum]
        rfl
      · intro e' he'
        rcases List.mem_cons.mp he' with rfl | he'
        · exact Nat.mod_lt _ (by decide)
        · exact htime e' (List.mem_cons_of_mem _ he')

theorem total_le (htime : ∀ e ∈ l, e.time < 2 ^ 32) : total l ≤ l.length * (2 ^ 32 - 1) := by
  induction l with
  | nil => exact Nat.zero_le _
  | cons e es ih =>
      have he := htime e List.mem_cons_self
      have hes := ih fun e' he' => htime e' (List.mem_cons_of_mem _ he')
      rw [total_cons, List.length_cons, Nat.add_mul, Nat.one_mul]
      omega

/-- The place is found where the sums pass the target. -/
theorem exists_between (t : Nat) (l : List TimerEntry) : ∃ front rear, l = front ++ rear ∧
    total front ≤ t ∧ ∀ e es, rear = e :: es → t < total front + e.time := by
  by_cases h : t < total l
  · obtain ⟨front, e, back, heq, hle, hlt⟩ := exists_place h
    refine ⟨front, e :: back, heq, hle, ?_⟩
    intro e' es heq'
    cases heq'
    exact hlt
  · exact ⟨l, [], (List.append_nil l).symm, Nat.le_of_not_lt h, nofun⟩

theorem between_of (heq : s.timers = front ++ rear) (hle : total front ≤ t)
    (hlt : ∀ e es, rear = e :: es → t < total front + e.time) : Between t front rear s where
  timers := heq
  before := by
    intro p hp
    have := (sums_bounds hp).2
    omega
  after := by
    intro p hp
    cases rear with
    | nil => cases hp
    | cons e es =>
        have hfirst := hlt e es rfl
        rcases List.mem_cons.mp hp with rfl | hp
        · exact hfirst
        · exact hfirst.trans_le (sums_bounds hp).1

/-! ## `Enqueue` -/

/-- An accepted entry is inserted. -/
theorem Fits.inserted (h : s.Fits) (hroom : s.timers.length ≠ maxCount)
    (htimers : s.timers = front ++ rear) (hle : total front ≤ t)
    (hlt : ∀ e es, rear = e :: es → t < total front + e.time) (hgap : t - total front < 2 ^ 32)
    {ticks count : Nat} : Inserted t front rear s (s.accept ticks
      (front ++ ⟨s.accepted.length, t - total front⟩ :: lower (t - total front) rear) count) := by
  have htime := h.time
  have hlength := h.length
  rw [htimers] at htime hlength hroom
  have hshort : ∀ e ∈ rear.head?, t - total front ≤ e.time := by
    intro e he
    obtain ⟨es, rfl⟩ := List.head?_eq_some_iff.mp he
    exact Nat.sub_le_iff_le_add'.mpr (hlt e es rfl).le
  obtain ⟨hsums, hlower⟩ := sums_lower (total front) hshort
    fun e he => htime e (List.mem_append_right _ he)
  have hlen : (lower (t - total front) rear).length = rear.length := by
    cases rear with
    | nil => rfl
    | cons e es => simp only [lower, List.length_cons]
  refine ⟨?_, hshort, ?_, ?_⟩
  · show Timer.sums 0 (front ++ ⟨s.accepted.length, t - total front⟩ ::
      lower (t - total front) rear) = _
    rw [sums_append, Nat.zero_add]
    show _ ++ (s.accepted.length, total front + (t - total front)) ::
      Timer.sums (total front + (t - total front)) _ = _
    rw [hsums, Nat.add_sub_cancel' hle]
  · intro e he
    rcases List.mem_append.mp he with he | he
    · exact htime e (List.mem_append_left _ he)
    · rcases List.mem_cons.mp he with rfl | he
      · show t - total front < 2 ^ 32
        exact hgap
      · exact hlower e he
  · have hnew : (front ++ ⟨s.accepted.length, t - total front⟩ ::
        lower (t - total front) rear).length = s.timers.length + 1 := by
      rw [htimers, List.length_append, List.length_append, List.length_cons, hlen]
      rfl
    have hmore : s.timers.length + 1 ≤ maxCount := by
      rw [htimers]
      omega
    exact ⟨hnew, hnew.trans_le hmore⟩

theorem Fits.elapsed_eq (tpm delay : Nat) (h : s.Fits) (heq : s.timers = e :: l) :
    s.elapsed = e.time - s.count ∧ s.target tpm delay = delayTicks tpm delay + s.elapsed := by
  have htime := h.time e (by rw [heq]; exact List.mem_cons_self)
  have hcount := h.count e (by rw [heq]; rfl)
  have helapsed : s.elapsed = e.time - s.count := by
    rw [elapsed, heq]
    show (e.time + 2 ^ 32 - s.count) % 2 ^ 32 = e.time - s.count
    omega
  refine ⟨helapsed, ?_⟩
  rw [helapsed, target, heq]

theorem enqueue_insert (hroom : s.timers.length ≠ maxCount) (heq : s.timers = e :: l) :
    s.enqueue tpm delay = s.insert (delay * tpm) (delayTicks tpm delay) := by
  have hpos : s.timers.length > 0 := by
    rw [heq]
    exact Nat.succ_pos l.length
  unfold Core.enqueue
  exact (if_neg hroom).trans (if_pos hpos)

theorem enqueue_nil (heq : s.timers = []) : s.enqueue tpm delay =
    if delayTicks tpm delay > 0xFFFFFFFF then (false, s)
    else (true, s.accept (delay * tpm) [⟨s.accepted.length, delayTicks tpm delay⟩]
      (delayTicks tpm delay)) := by
  have hroom : ¬ s.timers.length = maxCount := by
    rw [heq]
    decide
  have hpos : ¬ s.timers.length > 0 := by
    rw [heq]
    exact Nat.lt_irrefl 0
  unfold Core.enqueue
  exact (if_neg hroom).trans (if_neg hpos)

/-- A full list is left as it is. -/
theorem Fits.maintained_full (h : s.timers.length = maxCount) : s.Maintained tpm delay := by
  obtain ⟨front, rear, htimers, hle, hlt⟩ := exists_between (s.target tpm delay) s.timers
  refine ⟨front, rear, between_of htimers hle hlt, ?_⟩
  rw [if_pos (Or.inl h)]
  unfold Core.enqueue
  exact if_pos h

theorem Fits.maintained_nil (h : s.Fits) (heq : s.timers = []) : s.Maintained tpm delay := by
  have hroom : s.timers.length ≠ maxCount := by
    rw [heq]
    decide
  have htarget : s.target tpm delay = delayTicks tpm delay := by
    rw [target, heq]
    rfl
  have hnone : ∀ e es, ([] : List TimerEntry) = e :: es →
      delayTicks tpm delay < total [] + e.time := nofun
  refine ⟨[], [], between_of heq (Nat.zero_le _) nofun, ?_⟩
  rw [htarget, enqueue_nil heq, total_nil, Nat.sub_zero]
  by_cases hgap : delayTicks tpm delay > 0xFFFFFFFF
  · have hlarge : 2 ^ 32 ≤ delayTicks tpm delay := by omega
    rw [if_pos hgap, if_pos (Or.inr hlarge)]
  · rw [if_neg hgap, if_neg (not_or.mpr ⟨hroom, by omega⟩)]
    have hinserted : Inserted (delayTicks tpm delay) [] [] s (s.accept (delay * tpm)
        ([] ++ [⟨s.accepted.length, delayTicks tpm delay - total []⟩]) (delayTicks tpm delay)) :=
      h.inserted hroom heq (Nat.zero_le _) hnone (by rw [total_nil]; omega)
    exact ⟨rfl, hinserted⟩

/-- Where the sum does not overflow the entry goes where it is due. -/
theorem Fits.maintained_cons (h : s.Fits) (hroom : s.timers.length ≠ maxCount)
    (heq : s.timers = e :: l) (hlt : delayTicks tpm delay + (e.time - s.count) < 2 ^ 64) :
    s.Maintained tpm delay := by
  obtain ⟨helapsed, htarget⟩ := h.elapsed_eq tpm delay heq
  rw [← helapsed, ← htarget] at hlt
  obtain ⟨front, rear, htimers, hle, hrear⟩ := exists_between (s.target tpm delay) s.timers
  have hsum : (delayTicks tpm delay + s.elapsed) % 2 ^ 64 = s.target tpm delay := by
    rw [← htarget, Nat.mod_eq_of_lt hlt]
  refine ⟨front, rear, between_of htimers hle hrear, ?_⟩
  rw [enqueue_insert hroom heq, insert_eq htimers hsum hle hrear]
  by_cases hgap : s.target tpm delay - total front > 0xFFFFFFFF
  · have hlarge : 2 ^ 32 ≤ s.target tpm delay - total front := by omega
    rw [if_pos hgap, if_pos (Or.inr hlarge)]
  · rw [if_neg hgap, if_neg (not_or.mpr ⟨hroom, by omega⟩)]
    exact ⟨rfl, h.inserted hroom htimers hle hrear (by omega)⟩

/-- A sum that overflows is accepted at the front, long before it is due. -/
theorem Fits.overflow (h : s.Fits) (hroom : s.timers.length ≠ maxCount)
    (heq : s.timers = e :: l) (hge : 2 ^ 64 ≤ delayTicks tpm delay + (e.time - s.count)) :
    ¬ s.Maintained tpm delay := by
  rintro ⟨front, rear, hbetween, hif⟩
  obtain ⟨helapsed, htarget⟩ := h.elapsed_eq tpm delay heq
  have htime := h.time e (by rw [heq]; exact List.mem_cons_self)
  have hticks : delayTicks tpm delay < 2 ^ 64 := by
    unfold delayTicks
    split
    · decide
    · exact Nat.mod_lt _ (by decide)
  have hlong : total s.timers ≤ 32 * (2 ^ 32 - 1) :=
    (total_le h.time).trans (Nat.mul_le_mul_right _ h.length)
  have hfront : total front ≤ total s.timers := by
    rw [hbetween.timers, total_append]
    exact Nat.le_add_right _ _
  rw [← helapsed] at hge
  have hfar : 2 ^ 32 ≤ s.target tpm delay - total front := by
    rw [htarget]
    omega
  rw [if_pos (Or.inr hfar), enqueue_insert hroom heq] at hif
  have hfirst : ∀ e' es, s.timers = e' :: es →
      (delayTicks tpm delay + s.elapsed) % 2 ^ 64 < total [] + e'.time := by
    intro e' es hes
    obtain rfl : e' = e := (List.cons.inj (heq.symm.trans hes)).1.symm
    rw [total_nil]
    omega
  have hinsert : s.insert (delay * tpm) (delayTicks tpm delay) = _ :=
    insert_eq (List.nil_append s.timers).symm rfl (Nat.zero_le _) hfirst
  rw [hif, total_nil, if_neg (by omega)] at hinsert
  cases hinsert

/-- `Enqueue` keeps the deltas exactly if the list is full or empty, or the elapsed time can be
added to the ticks. -/
theorem enqueue_maintained_iff (tpm delay : Nat) (h : s.Fits) :
    s.Maintained tpm delay ↔ s.timers.length = maxCount ∨
      ∀ e ∈ s.timers.head?, delayTicks tpm delay + (e.time - s.count) < 2 ^ 64 := by
  constructor
  · intro hm
    by_contra hnot
    rw [not_or] at hnot
    obtain ⟨hroom, hnot⟩ := hnot
    refine hnot fun e he => ?_
    obtain ⟨es, heq⟩ := List.head?_eq_some_iff.mp he
    by_contra hge
    exact h.overflow hroom heq (Nat.le_of_not_lt hge) hm
  · rintro (hfull | hlt)
    · exact Fits.maintained_full hfull
    · by_cases hroom : s.timers.length = maxCount
      · exact Fits.maintained_full hroom
      · cases heq : s.timers with
        | nil => exact h.maintained_nil heq
        | cons e es =>
            rw [heq] at hlt
            exact h.maintained_cons hroom heq (hlt e rfl)

/-- Two timers, and half of the count of the first one has elapsed. -/
def halfway : Core := ⟨[⟨0, 10⟩, ⟨1, 7⟩], 5, 5, [10, 17], []⟩

theorem halfway_fits : halfway.Fits where
  length := by decide
  time := by decide
  count := by decide

theorem enqueue_maintained_halfway : halfway.Maintained 1 8 :=
  (enqueue_maintained_iff 1 8 halfway_fits).mpr (Or.inr (by decide))

/-- With the longest delay the sum overflows. -/
theorem enqueue_not_maintained : ¬ ∀ tpm delay (s : Core), s.Fits → s.Maintained tpm delay := by
  intro hall
  exact halfway_fits.overflow (e := ⟨0, 10⟩) (by decide) rfl (by decide)
    (hall 1 (2 ^ 64 - 1) halfway halfway_fits)

end Core

end Beelzebub.Timer
