import Beelzebub.Utils.RingBuffer
import Mathlib.Logic.Function.Basic
import Mathlib.Tactic.NormNum

/-!
# Blocking pushes to the ring buffer

A producer reserves its positions with one fetch-add, copies its bytes in runs as consumers
make room, and publishes them by plain stores to the hard head, once it has seen the hard head
reach its own start.  When it is done it waits for the producers before it.

Any number of producers and consumers take part.  A step is one load, one store, one exchange
or one copy.
-/

namespace Beelzebub.Utils

/-! ## The code -/

/-- The locals of `Push`.  The number of bytes it was called with is only for the record. -/
structure Pushing where
  myHS : ℕ
  elems : List UInt8
  start : ℕ
  hss : ℕ
  size : ℕ

/-- Where a thread is: in `Push` before the load of the bound, the copy, the test or the store
of the hard head, in the last loop or before the last store; in `TryBeginPop` before a load or
the exchange; with a cookie; in `EndPop` before its load or its store; or at a division by
zero. -/
inductive RingPlace where
  | idle
  | bounding (p : Pushing)
  | copying (p : Pushing) (bufEnd : ℕ)
  | testing (p : Pushing)
  | storing (p : Pushing)
  | finishing (p : Pushing)
  | closing (p : Pushing)
  | poppingTail (max min myHH : ℕ)
  | poppingSoft (max min myHH myTH : ℕ)
  | exchanging (myTS cpycnt relTS : ℕ)
  | popped (c : PopCookie)
  | ending (c : PopCookie)
  | closingPop (c : PopCookie)
  | faulted

/-- The buffer and its users.  The fields after `place` are only for the record: the byte that
was written at each position, how far the hard tail and the hard head ever came, and the
starts and sizes of the pushes that returned. -/
structure SharedRing (ι : Type) where
  tailHard : ℕ
  headHard : ℕ
  tailSoft : ℕ
  headSoft : ℕ
  capacity : ℕ
  buffer : ℕ → UInt8
  place : ι → RingPlace
  stream : ℕ → Option UInt8
  passed : ℕ
  peak : ℕ
  returned : List (ℕ × ℕ)

namespace SharedRing

variable {ι : Type}

def initial (buffer : ℕ → UInt8) (capacity : ℕ) : SharedRing ι where
  tailHard := 0
  headHard := 0
  tailSoft := 0
  headSoft := 0
  capacity := capacity
  buffer := buffer
  place _ := .idle
  stream _ := none
  passed := 0
  peak := 0
  returned := []

/-- The bytes are written from this position on. -/
def record (stream : ℕ → Option UInt8) (h : ℕ) (ys : List UInt8) : ℕ → Option UInt8 := fun p =>
  if h ≤ p ∧ p < h + ys.length then ys[p - h]? else stream p

/-- Where the loop of `Push` goes on. -/
def again (p : Pushing) : RingPlace := if p.elems.length > 0 then .bounding p else .finishing p

variable [DecidableEq ι]

def move (i : ι) (p : RingPlace) (s : SharedRing ι) : SharedRing ι :=
  { s with place := Function.update s.place i p }

def storeHead (value : ℕ) (s : SharedRing ι) : SharedRing ι :=
  { s with headHard := value, peak := Nat.max s.peak value }

/-- The fetch-add of `Push`. -/
def push (i : ι) (elems : List UInt8) (s : SharedRing ι) : SharedRing ι :=
  if elems.length = 0 then s
  else
    let p : Pushing :=
      ⟨s.headSoft, elems, s.headSoft % s.capacity, s.headSoft, elems.length⟩
    { s.move i (if s.capacity = 0 then .faulted else .bounding p) with
      headSoft := Word.add s.headSoft elems.length }

/-- `bufEnd`, and the test whether there is room. -/
def bound (i : ι) (p : Pushing) (s : SharedRing ι) : SharedRing ι :=
  let bufEnd := Word.add s.capacity s.tailHard
  if p.hss ≥ bufEnd then s else s.move i (.copying p bufEnd)

/-- `cpycnt`. -/
def copyCount (p : Pushing) (bufEnd capacity : ℕ) : ℕ :=
  minimum (Word.sub bufEnd p.hss) (minimum p.elems.length (Word.sub capacity p.start))

/-- What `Push` goes on with after the copy. -/
def after (p : Pushing) (cpycnt capacity : ℕ) : Pushing where
  myHS := p.myHS
  elems := p.elems.drop cpycnt
  start := if p.start + cpycnt ≥ capacity then 0 else p.start + cpycnt
  hss := Word.add p.hss cpycnt
  size := p.size

/-- The `memcpy` of `Push`. -/
def copy (i : ι) (p : Pushing) (bufEnd : ℕ) (s : SharedRing ι) : SharedRing ι :=
  let cpycnt := copyCount p bufEnd s.capacity
  { s.move i (.testing (after p cpycnt s.capacity)) with
    buffer := Circular.write s.buffer p.start (p.elems.take cpycnt)
    stream := record s.stream p.hss (p.elems.take cpycnt) }

/-- The first load of `TryBeginPop`. -/
def tryBeginPop (i : ι) (max min : ℕ) (s : SharedRing ι) : SharedRing ι :=
  if min > s.capacity then s else s.move i (.poppingTail max min s.headHard)

/-- The load of the soft tail, and what `TryBeginPop` makes of the three. -/
def loadSoft (i : ι) (max min myHH myTH : ℕ) (s : SharedRing ι) : SharedRing ι :=
  if myHH = s.tailSoft ∨ myTH ≠ s.tailSoft then s.move i .idle
  else if s.capacity = 0 then s.move i .faulted
  else
    let relTS := s.tailSoft % s.capacity
    let bufEnd := minimum myHH (Word.sub (Word.add myTH s.capacity) relTS)
    let cpycnt := Word.sub bufEnd s.tailSoft
    if cpycnt < min then s.move i .idle
    else s.move i (.exchanging s.tailSoft (if cpycnt > max then max else cpycnt) relTS)

def exchange (i : ι) (myTS cpycnt relTS : ℕ) (s : SharedRing ι) : SharedRing ι :=
  if s.tailSoft = myTS then
    { s.move i (.popped ⟨relTS, cpycnt, myTS⟩) with tailSoft := Word.add myTS cpycnt }
  else s.move i .idle

/-- The load of `EndPop`. -/
def endPop (i : ι) (c : PopCookie) (s : SharedRing ι) : SharedRing ι :=
  if s.tailHard ≠ c.tail then s.move i (.ending c) else s.move i (.closingPop c)

/-- The next step of a thread. -/
def advance (i : ι) (s : SharedRing ι) : SharedRing ι :=
  match s.place i with
  | .idle => s
  | .bounding p => s.bound i p
  | .copying p bufEnd => s.copy i p bufEnd
  | .testing p => if s.headHard ≥ p.myHS then s.move i (.storing p) else s.move i (again p)
  | .storing p => (s.storeHead p.hss).move i (again p)
  | .finishing p => if s.headHard < p.myHS then s else s.move i (.closing p)
  | .closing p =>
      { (s.storeHead p.myHS).move i .idle with returned := (p.myHS, p.size) :: s.returned }
  | .poppingTail max min myHH => s.move i (.poppingSoft max min myHH s.tailHard)
  | .poppingSoft max min myHH myTH => s.loadSoft i max min myHH myTH
  | .exchanging myTS cpycnt relTS => s.exchange i myTS cpycnt relTS
  | .popped _ => s
  | .ending c => s.endPop i c
  | .closingPop c =>
      { s.move i .idle with
        tailHard := Word.add c.tail c.count
        passed := Nat.max s.passed (Word.add c.tail c.count) }
  | .faulted => s

/-- A call with its first step, or the next step of a thread. -/
inductive RingAction (ι : Type) where
  | push (i : ι) (elems : List UInt8)
  | tryBeginPop (i : ι) (max min : ℕ)
  | endPop (i : ι)
  | advance (i : ι)

def perform (s : SharedRing ι) : RingAction ι → SharedRing ι
  | .push i elems => s.push i elems
  | .tryBeginPop i max min => s.tryBeginPop i max min
  | .endPop i =>
      match s.place i with
      | .popped c => s.endPop i c
      | _ => s
  | .advance i => s.advance i

omit [DecidableEq ι] in
def Enabled (s : SharedRing ι) : RingAction ι → Prop
  | .push i _ => s.place i = .idle
  | .tryBeginPop i _ _ => s.place i = .idle
  | .endPop i => ∃ c, s.place i = .popped c
  | .advance _ => True

inductive Reachable (capacity : ℕ) (kind : SharedRing ι → RingAction ι → Prop) :
    SharedRing ι → Prop
  | start (buffer : ℕ → UInt8) : Reachable capacity kind (initial buffer capacity)
  | step {s : SharedRing ι} (a : RingAction ι) : Reachable capacity kind s → s.Enabled a →
      kind s a → Reachable capacity kind (s.perform a)

/-! ## What is asked -/

/-- The hard head has never decreased, what is below it was written, pushes that returned are
below it, and what the hard tail has not passed is still in the buffer. -/
structure Published (s : SharedRing ι) : Prop where
  monotone : s.headHard = s.peak
  written : ∀ p < s.headHard, ∃ b, s.stream p = some b
  returned : ∀ r ∈ s.returned, r.1 + r.2 ≤ s.headHard
  kept : ∀ p b, s.stream p = some b → s.passed ≤ p → s.buffer (p % s.capacity) = b

/-! ## The condition -/

/-- The last store of a push. -/
def Closing (s : SharedRing ι) (i : ι) : Prop := ∃ p, s.place i = .closing p

/-- No push makes its last store, no pop has loaded a hard head that is behind the soft tail,
and the positions stay below `2 ^ 64`. -/
def Fit (s : SharedRing ι) : RingAction ι → Prop
  | .push _ elems => s.headSoft + elems.length < 2 ^ 64
  | .advance i => ¬ s.Closing i ∧ ∀ max min myHH myTH, s.place i = .poppingSoft max min myHH myTH →
      myHH ≠ s.tailSoft → myTH = s.tailSoft → s.tailSoft ≤ myHH ∧
        s.tailSoft + (s.capacity - s.tailSoft % s.capacity) < 2 ^ 64
  | _ => True

/-! ## The invariant -/

/-- The push that a thread is in. -/
def pushing : RingPlace → Option Pushing
  | .bounding p => some p
  | .copying p _ => some p
  | .testing p => some p
  | .storing p => some p
  | .finishing p => some p
  | .closing p => some p
  | _ => none

/-- A push has written its positions up to `hss`, and the others are still free. -/
structure Lane (headSoft capacity : ℕ) (stream : ℕ → Option UInt8) (p : Pushing) : Prop where
  pos : 0 < p.size
  room : 0 < capacity
  order : p.myHS ≤ p.hss
  bound : p.hss + p.elems.length ≤ headSoft
  start : p.start = p.hss % capacity
  fresh : ∀ q, p.hss ≤ q → q < p.hss + p.elems.length → stream q = none
  done : ∀ q, p.myHS ≤ q → q < p.hss → ∃ b, stream q = some b

/-- The hard head is not past what a producer has written while it still copies; a consumer has
loaded and taken what was there. -/
def Ready (headHard tailSoft passed capacity : ℕ) : RingPlace → Prop
  | .bounding p => 0 < p.elems.length ∧ headHard ≤ p.hss
  | .copying p bufEnd => 0 < p.elems.length ∧ headHard ≤ p.hss ∧ p.hss < bufEnd ∧
      bufEnd < 2 ^ 64 ∧ bufEnd ≤ capacity + passed
  | .testing p => p.myHS < p.hss ∧ headHard < p.hss
  | .storing p => p.myHS ≤ headHard ∧ headHard < p.hss
  | .poppingTail _ _ myHH => myHH ≤ headHard
  | .poppingSoft _ _ myHH _ => myHH ≤ headHard
  | .exchanging myTS cpycnt _ => myTS + cpycnt ≤ headHard
  | .popped c => c.tail + c.count ≤ tailSoft
  | .ending c => c.tail + c.count ≤ tailSoft
  | .closingPop c => c.tail + c.count ≤ tailSoft
  | _ => True

structure Inv (s : SharedRing ι) : Prop where
  size : s.capacity < 2 ^ 64
  small : s.headSoft < 2 ^ 64
  peak : s.headHard = s.peak
  head : s.headHard ≤ s.headSoft
  soft : s.tailSoft ≤ s.headHard
  passed : s.tailHard ≤ s.passed ∧ s.passed ≤ s.tailSoft
  written : ∀ p < s.headHard, ∃ b, s.stream p = some b
  stored : ∀ q b, s.stream q = some b → q < s.passed + s.capacity ∧ q < s.headSoft ∧
    (s.passed ≤ q → s.buffer (q % s.capacity) = b)
  returned : s.returned = []
  lanes : ∀ i p, pushing (s.place i) = some p → Lane s.headSoft s.capacity s.stream p
  ready : ∀ i, Ready s.headHard s.tailSoft s.passed s.capacity (s.place i)
  apart : ∀ i j p q, i ≠ j → pushing (s.place i) = some p → pushing (s.place j) = some q →
    p.hss + p.elems.length ≤ q.myHS ∨ q.hss + q.elems.length ≤ p.myHS

variable {s : SharedRing ι} {i j : ι} {p q : Pushing} {x y : RingPlace}

omit [DecidableEq ι] in
theorem Inv.toPublished (h : s.Inv) : s.Published := by
  refine ⟨h.peak, h.written, ?_, fun q b hq => (h.stored q b hq).2.2⟩
  intro r hr
  rw [h.returned] at hr
  cases hr

omit [DecidableEq ι] in
theorem inv_initial {buffer : ℕ → UInt8} {capacity : ℕ} (h : capacity < 2 ^ 64) :
    (initial buffer capacity : SharedRing ι).Inv := by
  refine ⟨h, Nat.two_pow_pos 64, rfl, le_rfl, le_rfl, ⟨le_rfl, le_rfl⟩, ?_, ?_, rfl, ?_,
    fun _ => trivial, ?_⟩
  · intro p hp
    cases hp
  · intro q b hq
    cases hq
  · intro i p hp
    cases hp
  · intro i j p q _ hp
    cases hp

/-! ### What the other threads need -/

theorem Lane.mono {headSoft headSoft' capacity : ℕ} {stream : ℕ → Option UInt8}
    (h : Lane headSoft capacity stream p) (hle : headSoft ≤ headSoft') :
    Lane headSoft' capacity stream p :=
  ⟨h.pos, h.room, h.order, Nat.le_trans h.bound hle, h.start, h.fresh, h.done⟩

/-- The tails go on. -/
theorem Ready.mono {headHard tailSoft tailSoft' passed passed' capacity : ℕ}
    (h : Ready headHard tailSoft passed capacity x) (hsoft : tailSoft ≤ tailSoft')
    (hpassed : passed ≤ passed') : Ready headHard tailSoft' passed' capacity x := by
  cases x with
  | copying p bufEnd =>
      obtain ⟨hpos, hhead, hlt, hsmall, hle⟩ := h
      exact ⟨hpos, hhead, hlt, hsmall, Nat.le_trans hle (Nat.add_le_add_left hpassed _)⟩
  | popped c => exact Nat.le_trans h hsoft
  | ending c => exact Nat.le_trans h hsoft
  | closingPop c => exact Nat.le_trans h hsoft
  | _ => exact h

/-! ### One step -/

/-- A thread goes on with the same push, or none, and the record of bytes stays. -/
theorem Inv.change {s' : SharedRing ι} (h : s.Inv)
    (hplace : s'.place = Function.update s.place i x) (hpushing : pushing x = pushing (s.place i))
    (hcapacity : s'.capacity = s.capacity) (hheadSoft : s'.headSoft = s.headSoft)
    (hbuffer : s'.buffer = s.buffer) (hstream : s'.stream = s.stream)
    (hreturned : s'.returned = s.returned) (hpeak : s'.headHard = s'.peak)
    (hhead : s'.headHard ≤ s.headSoft) (hsoft : s.tailSoft ≤ s'.tailSoft)
    (hsoft' : s'.tailSoft ≤ s'.headHard) (hpassed : s.passed ≤ s'.passed)
    (hpassed' : s'.tailHard ≤ s'.passed ∧ s'.passed ≤ s'.tailSoft)
    (hwritten : ∀ p < s'.headHard, ∃ b, s.stream p = some b)
    (hready : Ready s'.headHard s'.tailSoft s'.passed s.capacity x)
    (hothers : ∀ j, j ≠ i → Ready s'.headHard s.tailSoft s.passed s.capacity (s.place j)) :
    s'.Inv := by
  have hplaces : ∀ j, pushing (s'.place j) = pushing (s.place j) := by
    intro j
    rw [hplace]
    by_cases hji : j = i
    · rw [hji, Function.update_self, hpushing]
    · rw [Function.update_of_ne hji]
  refine ⟨?_, ?_, hpeak, ?_, hsoft', hpassed', ?_, ?_, ?_, ?_, ?_, ?_⟩
  · rw [hcapacity]
    exact h.size
  · rw [hheadSoft]
    exact h.small
  · rw [hheadSoft]
    exact hhead
  · rw [hstream]
    exact hwritten
  · intro q b hq
    rw [hstream] at hq
    rw [hcapacity, hbuffer, hheadSoft]
    obtain ⟨hlt, hlt', hkept⟩ := h.stored q b hq
    exact ⟨by omega, hlt', fun hle => hkept (Nat.le_trans hpassed hle)⟩
  · rw [hreturned]
    exact h.returned
  · intro j p hp
    rw [hplaces] at hp
    rw [hheadSoft, hcapacity, hstream]
    exact h.lanes j p hp
  · intro j
    rw [hplace, hcapacity]
    by_cases hji : j = i
    · rw [hji, Function.update_self]
      exact hready
    · rw [Function.update_of_ne hji]
      exact (hothers j hji).mono hsoft hpassed
  · intro j k p q hjk hp hq
    rw [hplaces] at hp hq
    exact h.apart j k p q hjk hp hq

/-- A thread only loads. -/
theorem Inv.moved (h : s.Inv) (hpushing : pushing x = pushing (s.place i))
    (hready : Ready s.headHard s.tailSoft s.passed s.capacity x) : (s.move i x).Inv :=
  h.change rfl hpushing rfl rfl rfl rfl rfl h.peak h.head le_rfl h.soft le_rfl h.passed h.written
    hready fun j _ => h.ready j

/-! ### Producers -/

theorem Inv.pushFaulted (h : s.Inv) (hi : s.place i = .idle) (n : ℕ)
    (hsmall : s.headSoft + n < 2 ^ 64) :
    ({ s.move i .faulted with headSoft := s.headSoft + n } : SharedRing ι).Inv := by
  have hmoved : (s.move i .faulted).Inv := h.moved (by rw [hi]; rfl) trivial
  refine ⟨hmoved.size, hsmall, hmoved.peak, Nat.le_trans hmoved.head (Nat.le_add_right _ _),
    hmoved.soft, hmoved.passed, hmoved.written, ?_, hmoved.returned, ?_, hmoved.ready, hmoved.apart⟩
  · intro q b hq
    obtain ⟨hlt, hlt', hkept⟩ := hmoved.stored q b hq
    exact ⟨hlt, Nat.lt_of_lt_of_le hlt' (Nat.le_add_right _ _), hkept⟩
  · intro j p hp
    exact (hmoved.lanes j p hp).mono (Nat.le_add_right _ _)

/-- The new positions are above all others. -/
theorem Inv.pushed (h : s.Inv) {elems : List UInt8} (hcapacity : 0 < s.capacity)
    (hlength : 0 < elems.length) (hsmall : s.headSoft + elems.length < 2 ^ 64) :
    ({ s.move i (.bounding ⟨s.headSoft, elems, s.headSoft % s.capacity, s.headSoft,
        elems.length⟩) with headSoft := s.headSoft + elems.length } : SharedRing ι).Inv := by
  have hplace : ∀ j p, pushing (Function.update s.place i (.bounding ⟨s.headSoft, elems,
      s.headSoft % s.capacity, s.headSoft, elems.length⟩) j) = some p →
        (j = i ∧ p = ⟨s.headSoft, elems, s.headSoft % s.capacity, s.headSoft, elems.length⟩) ∨
          j ≠ i ∧ pushing (s.place j) = some p := by
    intro j p hp
    by_cases hji : j = i
    · rw [hji, Function.update_self] at hp
      cases hp
      exact Or.inl ⟨hji, rfl⟩
    · rw [Function.update_of_ne hji] at hp
      exact Or.inr ⟨hji, hp⟩
  refine ⟨h.size, hsmall, h.peak, Nat.le_trans h.head (Nat.le_add_right _ _), h.soft, h.passed,
    h.written, ?_, h.returned, ?_, ?_, ?_⟩
  · intro q b hq
    obtain ⟨hlt, hlt', hkept⟩ := h.stored q b hq
    exact ⟨hlt, Nat.lt_of_lt_of_le hlt' (Nat.le_add_right _ _), hkept⟩
  · intro j p hp
    obtain ⟨-, rfl⟩ | ⟨-, hp⟩ := hplace j p hp
    · refine ⟨hlength, hcapacity, le_rfl, le_rfl, rfl, ?_, ?_⟩
      · intro q hle _
        cases hq : s.stream q with
        | none => exact hq
        | some b => exact absurd (h.stored q b hq).2.1 (Nat.not_lt_of_le hle)
      · intro q hle hlt
        exact absurd hlt (Nat.not_lt_of_le hle)
    · exact (h.lanes j p hp).mono (Nat.le_add_right _ _)
  · refine (Function.forall_update_iff s.place
      (p := fun _ x => Ready s.headHard s.tailSoft s.passed s.capacity x)).mpr
      ⟨?_, fun j _ => h.ready j⟩
    exact ⟨hlength, h.head⟩
  · intro j k p q hjk hp hq
    obtain ⟨hj, rfl⟩ | ⟨-, hp'⟩ := hplace j p hp
    · obtain ⟨hk, rfl⟩ | ⟨-, hq'⟩ := hplace k q hq
      · exact (hjk (hj.trans hk.symm)).elim
      · exact Or.inr (h.lanes k q hq').bound
    · obtain ⟨hk, rfl⟩ | ⟨-, hq'⟩ := hplace k q hq
      · exact Or.inl (h.lanes j p hp').bound
      · exact h.apart j k p q hjk hp' hq'

theorem Inv.push (h : s.Inv) (hi : s.place i = .idle) (elems : List UInt8)
    (hsmall : s.headSoft + elems.length < 2 ^ 64) : (s.push i elems).Inv := by
  unfold SharedRing.push
  split
  next => exact h
  next hlength =>
    dsimp only
    rw [Word.add_of_lt hsmall]
    split
    next => exact h.pushFaulted hi _ hsmall
    next hcapacity => exact h.pushed (Nat.pos_of_ne_zero hcapacity) (Nat.pos_of_ne_zero hlength) hsmall

theorem Inv.bound (h : s.Inv) (hi : s.place i = .bounding p) : (s.bound i p).Inv := by
  have hready := h.ready i
  rw [hi] at hready
  unfold SharedRing.bound
  dsimp only
  split
  next => exact h
  next hlt =>
    refine h.moved (by rw [hi]; rfl)
      ⟨hready.1, hready.2, Nat.lt_of_not_le hlt, Word.add_lt _ _, ?_⟩
    have hpassed := h.passed
    have hle : Word.add s.capacity s.tailHard ≤ s.capacity + s.tailHard := Nat.mod_le _ _
    omega

omit [DecidableEq ι] in
/-- A run is copied that fits where it must. -/
theorem Inv.copyCount_spec (h : s.Inv) {bufEnd : ℕ} (hi : s.place i = .copying p bufEnd) :
    0 < copyCount p bufEnd s.capacity ∧ copyCount p bufEnd s.capacity ≤ p.elems.length ∧
      p.hss + copyCount p bufEnd s.capacity ≤ bufEnd ∧
      p.hss % s.capacity + copyCount p bufEnd s.capacity ≤ s.capacity := by
  have hready := h.ready i
  have hlane := h.lanes i p (by rw [hi]; rfl)
  have hbound := hlane.bound
  have hsize := h.size
  have hsmall := h.small
  rw [hi] at hready
  obtain ⟨hpos, hhead, hlt, hsmall, hle⟩ := hready
  have hmod := Nat.mod_lt p.hss hlane.room
  have hroom : Word.sub s.capacity p.start = s.capacity - p.hss % s.capacity := by
    rw [hlane.start]
    exact Word.sub_of_le hsize (Nat.le_of_lt hmod)
  unfold copyCount
  rw [hroom, Word.sub_of_le hsmall (Nat.le_of_lt hlt)]
  unfold minimum
  split <;> split <;> omega

theorem record_of_outside {stream : ℕ → Option UInt8} {h r : ℕ} {ys : List UInt8}
    (hr : r < h ∨ h + ys.length ≤ r) : record stream h ys r = stream r := if_neg (by omega)

theorem record_of_inside {stream : ℕ → Option UInt8} {h r : ℕ} {ys : List UInt8} (hle : h ≤ r)
    (hlt : r - h < ys.length) : record stream h ys r = some ys[r - h] := by
  unfold record
  rw [if_pos ⟨hle, by omega⟩, List.getElem?_eq_getElem hlt]

/-- What was written stays written. -/
theorem record_some {stream : ℕ → Option UInt8} {h r : ℕ} {ys : List UInt8}
    (hr : ∃ b, stream r = some b) : ∃ b, record stream h ys r = some b := by
  by_cases hin : h ≤ r ∧ r < h + ys.length
  · exact ⟨_, record_of_inside hin.1 (by omega)⟩
  · rw [record_of_outside (by omega)]
    exact hr

/-- The lane after the copy ends where it did. -/
theorem after_end {n : ℕ} (capacity : ℕ) (hn : n ≤ p.elems.length) (hsmall : p.hss + n < 2 ^ 64) :
    (after p n capacity).hss = p.hss + n ∧
      (after p n capacity).hss + (after p n capacity).elems.length = p.hss + p.elems.length := by
  have hhss : (after p n capacity).hss = p.hss + n := Word.add_of_lt hsmall
  refine ⟨hhss, ?_⟩
  rw [hhss]
  show p.hss + n + (p.elems.drop n).length = _
  rw [List.length_drop]
  omega

/-- A producer has written `n` more bytes. -/
theorem Lane.after {headSoft capacity n : ℕ} {stream : ℕ → Option UInt8}
    (h : Lane headSoft capacity stream p) (hsmall : headSoft < 2 ^ 64) (hn : n ≤ p.elems.length)
    (hfit : p.hss % capacity + n ≤ capacity) :
    Lane headSoft capacity (record stream p.hss (p.elems.take n)) (after p n capacity) := by
  have hlength : (p.elems.take n).length = n := by
    rw [List.length_take]
    exact Nat.min_eq_left hn
  have hbound := h.bound
  obtain ⟨hhss, hend⟩ := after_end capacity hn (by omega)
  refine ⟨h.pos, h.room, ?_, ?_, ?_, ?_, ?_⟩
  · rw [hhss]
    exact Nat.le_trans h.order (Nat.le_add_right _ _)
  · rw [hend]
    exact hbound
  · rw [hhss]
    show (if p.start + n ≥ capacity then 0 else p.start + n) = (p.hss + n) % capacity
    rw [h.start]
    split
    next hge =>
      have heq : p.hss % capacity + n = capacity := Nat.le_antisymm hfit hge
      rw [← Nat.mod_add_mod, heq, Nat.mod_self]
    next hlt => exact (Circular.mod_add_lt _ _ (Nat.lt_of_not_le hlt)).symm
  · intro q hle hlt
    rw [hend] at hlt
    rw [hhss] at hle
    rw [record_of_outside (by omega)]
    exact h.fresh q (by omega) hlt
  · intro q hle hlt
    rw [hhss] at hlt
    by_cases hold : q < p.hss
    · exact record_some (h.done q hle hold)
    · exact ⟨_, record_of_inside (Nat.le_of_not_lt hold) (by omega)⟩

theorem Lane.record {headSoft capacity n : ℕ} {stream : ℕ → Option UInt8}
    (h : Lane headSoft capacity stream q) (hn : n ≤ p.elems.length)
    (hapart : p.hss + p.elems.length ≤ q.myHS ∨ q.hss + q.elems.length ≤ p.hss) :
    Lane headSoft capacity (record stream p.hss (p.elems.take n)) q := by
  have hlength : (p.elems.take n).length = n := by
    rw [List.length_take]
    exact Nat.min_eq_left hn
  have horder := h.order
  refine ⟨h.pos, h.room, h.order, h.bound, h.start, ?_,
    fun r hle hlt => record_some (h.done r hle hlt)⟩
  intro r hle hlt
  rw [record_of_outside (by omega)]
  exact h.fresh r hle hlt

/-- The producer writes the next run of its lane. -/
theorem Inv.copy (h : s.Inv) {bufEnd : ℕ} (hi : s.place i = .copying p bufEnd) :
    (s.copy i p bufEnd).Inv := by
  obtain ⟨hpos, hn, hend, hfit⟩ := h.copyCount_spec hi
  have hready := h.ready i
  rw [hi] at hready
  obtain ⟨-, hhead, -, -, hle⟩ := hready
  have hp : pushing (s.place i) = some p := by rw [hi]; rfl
  have hlane := h.lanes i p hp
  have hbound := hlane.bound
  have horder := hlane.order
  have hsmall := h.small
  have hsoft := h.soft
  have hpassed := h.passed
  unfold SharedRing.copy
  dsimp only
  generalize copyCount p bufEnd s.capacity = n at hpos hn hend hfit ⊢
  have hlength : (p.elems.take n).length = n := by
    rw [List.length_take]
    exact Nat.min_eq_left hn
  obtain ⟨hhss, hsame⟩ := after_end s.capacity hn (by omega)
  have hplace : ∀ j q, pushing (Function.update s.place i (.testing (after p n s.capacity)) j) =
      some q → (j = i ∧ q = after p n s.capacity) ∨ j ≠ i ∧ pushing (s.place j) = some q := by
    intro j q hq
    by_cases hji : j = i
    · rw [hji, Function.update_self] at hq
      cases hq
      exact Or.inl ⟨hji, rfl⟩
    · rw [Function.update_of_ne hji] at hq
      exact Or.inr ⟨hji, hq⟩
  refine ⟨h.size, h.small, h.peak, h.head, h.soft, h.passed, ?_, ?_, h.returned, ?_, ?_, ?_⟩
  · intro q hq
    exact record_some (h.written q hq)
  · intro q b hq
    have hq : record s.stream p.hss (p.elems.take n) q = some b := hq
    show q < s.passed + s.capacity ∧ q < s.headSoft ∧ (s.passed ≤ q →
      Circular.write s.buffer p.start (p.elems.take n) (q % s.capacity) = b)
    rw [hlane.start]
    by_cases hin : p.hss ≤ q ∧ q < p.hss + n
    · refine ⟨by omega, by omega, fun _ => ?_⟩
      rw [record_of_inside hin.1 (by omega)] at hq
      cases hq
      exact Circular.write_mod (by rw [hlength]; exact hfit) hin.1 (by omega)
    · rw [record_of_outside (by omega)] at hq
      obtain ⟨hlt, hlt', hkept⟩ := h.stored q b hq
      refine ⟨hlt, hlt', fun hle' => ?_⟩
      rw [Circular.write_mod_of_ne (by rw [hlength]; exact hfit) (by omega) (by omega) (by omega)]
      exact hkept hle'
  · intro j q hq
    obtain ⟨-, rfl⟩ | ⟨hji, hq'⟩ := hplace j q hq
    · exact hlane.after hsmall hn hfit
    · refine (h.lanes j q hq').record hn ?_
      have hapart := h.apart i j p q (Ne.symm hji) hp hq'
      omega
  · refine (Function.forall_update_iff s.place
      (p := fun _ x => Ready s.headHard s.tailSoft s.passed s.capacity x)).mpr
        ⟨?_, fun j _ => h.ready j⟩
    show p.myHS < (after p n s.capacity).hss ∧ s.headHard < (after p n s.capacity).hss
    omega
  · intro j k q r hjk hq hr
    obtain ⟨hj, rfl⟩ | ⟨hji, hq'⟩ := hplace j q hq
    · obtain ⟨hk, rfl⟩ | ⟨hki, hr'⟩ := hplace k r hr
      · exact (hjk (hj.trans hk.symm)).elim
      · rw [hsame]
        exact h.apart i k p r (Ne.symm hki) hp hr'
    · obtain ⟨hk, rfl⟩ | ⟨hki, hr'⟩ := hplace k r hr
      · rw [hsame]
        exact h.apart j i q p hji hq' hp
      · exact h.apart j k q r hjk hq' hr'

omit [DecidableEq ι] in
/-- In the loop again, or done. -/
theorem ready_again {headHard tailSoft passed capacity : ℕ} (hle : headHard ≤ p.hss) :
    Ready headHard tailSoft passed capacity (again p) := by
  unfold again
  split
  next hpos => exact ⟨hpos, hle⟩
  next => trivial

theorem pushing_again (p : Pushing) : pushing (again p) = some p := by
  unfold again
  split <;> rfl

theorem Inv.testing (h : s.Inv) (hi : s.place i = .testing p) : (s.advance i).Inv := by
  have hready := h.ready i
  rw [hi] at hready
  unfold SharedRing.advance
  rw [hi]
  dsimp only
  split
  next hle => exact h.moved (by rw [hi]; rfl) ⟨hle, hready.2⟩
  next =>
    exact h.moved (by rw [hi, pushing_again]; rfl) (ready_again (Nat.le_of_lt hready.2))

/-- The hard head goes on, to where the producer has written; the producers before it are done
with the hard head. -/
theorem Inv.storing (h : s.Inv) (hi : s.place i = .storing p) : (s.advance i).Inv := by
  have hready := h.ready i
  rw [hi] at hready
  obtain ⟨hstart, hlt⟩ := hready
  have hp : pushing (s.place i) = some p := by rw [hi]; rfl
  have hlane := h.lanes i p hp
  have hpeak : p.hss = Nat.max s.peak p.hss := by
    rw [← h.peak]
    exact (Nat.max_eq_right (Nat.le_of_lt hlt)).symm
  unfold SharedRing.advance
  rw [hi]
  show ((s.storeHead p.hss).move i (again p)).Inv
  refine h.change rfl ?_ rfl rfl rfl rfl rfl hpeak
    (Nat.le_trans (Nat.le_add_right _ _) hlane.bound) le_rfl
    (Nat.le_trans h.soft (Nat.le_of_lt hlt)) le_rfl h.passed ?_ (ready_again le_rfl) ?_
  · rw [pushing_again, hp]
  · intro q hq
    by_cases hold : q < p.myHS
    · exact h.written q (Nat.lt_of_lt_of_le hold hstart)
    · exact hlane.done q (Nat.le_of_not_lt hold) hq
  · intro j hji
    have hj := h.ready j
    show Ready p.hss s.tailSoft s.passed s.capacity (s.place j)
    -- A producer whose positions come first would still be before the hard head.
    have hafter : ∀ q, pushing (s.place j) = some q → s.headHard < q.hss + q.elems.length →
        p.hss ≤ q.myHS := by
      intro q hq hbefore
      have hapart := h.apart i j p q (Ne.symm hji) hp hq
      omega
    cases hx : s.place j with
    | bounding q =>
        rw [hx] at hj
        have hle := hafter q (by rw [hx]; rfl) (by have := hj.1; have := hj.2; omega)
        have horder := (h.lanes j q (by rw [hx]; rfl)).order
        exact ⟨hj.1, Nat.le_trans hle horder⟩
    | copying q bufEnd =>
        rw [hx] at hj
        have hle := hafter q (by rw [hx]; rfl) (by have := hj.1; have := hj.2.1; omega)
        have horder := (h.lanes j q (by rw [hx]; rfl)).order
        exact ⟨hj.1, Nat.le_trans hle horder, hj.2.2⟩
    | testing q =>
        rw [hx] at hj
        have hle := hafter q (by rw [hx]; rfl) (by have := hj.2; omega)
        exact ⟨hj.1, Nat.lt_of_le_of_lt hle hj.1⟩
    | storing q =>
        rw [hx] at hj
        have hle := hafter q (by rw [hx]; rfl) (by have := hj.2; omega)
        have hstart' := hj.1
        omega
    | poppingTail max min myHH =>
        rw [hx] at hj
        exact Nat.le_trans hj (Nat.le_of_lt hlt)
    | poppingSoft max min myHH myTH =>
        rw [hx] at hj
        exact Nat.le_trans hj (Nat.le_of_lt hlt)
    | exchanging myTS cpycnt relTS =>
        rw [hx] at hj
        exact Nat.le_trans hj (Nat.le_of_lt hlt)
    | _ =>
        rw [hx] at hj
        exact hj

/-! ### Consumers -/

/-- With a hard head that is not behind, what is taken is there. -/
theorem Inv.loadSoft (h : s.Inv) {max min myHH myTH : ℕ}
    (hi : s.place i = .poppingSoft max min myHH myTH)
    (hfit : myHH ≠ s.tailSoft → myTH = s.tailSoft → s.tailSoft ≤ myHH ∧
      s.tailSoft + (s.capacity - s.tailSoft % s.capacity) < 2 ^ 64) :
    (s.loadSoft i max min myHH myTH).Inv := by
  have hready := h.ready i
  rw [hi] at hready
  have hready : myHH ≤ s.headHard := hready
  have hback : (s.move i .idle).Inv := h.moved (by rw [hi]; rfl) trivial
  unfold SharedRing.loadSoft
  split
  next => exact hback
  next hothers =>
    obtain ⟨hne, heq⟩ := not_or.mp hothers
    obtain rfl := not_not.mp heq
    obtain ⟨hle, hsmall⟩ := hfit hne rfl
    split
    next => exact h.moved (by rw [hi]; rfl) trivial
    next hcapacity =>
      have hhead := h.head
      have hlt := h.small
      have hmod := Nat.mod_lt s.tailSoft (Nat.pos_of_ne_zero hcapacity)
      have hmod' := Nat.mod_le s.tailSoft s.capacity
      have hend : Word.sub (Word.add s.tailSoft s.capacity) (s.tailSoft % s.capacity) =
          s.tailSoft + (s.capacity - s.tailSoft % s.capacity) := by
        generalize s.tailSoft % s.capacity = rel at hmod hmod' hsmall ⊢
        unfold Word.sub Word.add
        omega
      dsimp only
      rw [hend, RingBuffer.minimum_eq_add _ hle]
      have hleft := RingBuffer.minimum_le_right (s.capacity - s.tailSoft % s.capacity)
        (myHH - s.tailSoft)
      rw [Word.sub_of_le (by omega) (Nat.le_add_right _ _), Nat.add_sub_cancel_left]
      split
      next => exact hback
      next =>
        refine h.moved (by rw [hi]; rfl) ?_
        show s.tailSoft + (if _ then max else _) ≤ s.headHard
        split <;> omega

theorem Inv.exchange (h : s.Inv) {myTS cpycnt relTS : ℕ}
    (hi : s.place i = .exchanging myTS cpycnt relTS) : (s.exchange i myTS cpycnt relTS).Inv := by
  have hready := h.ready i
  rw [hi] at hready
  have hready : myTS + cpycnt ≤ s.headHard := hready
  have hhead := h.head
  have hsmall := h.small
  have hpassed := h.passed
  unfold SharedRing.exchange
  split
  next heq =>
    rw [Word.add_of_lt (by omega)]
    refine h.change rfl (by rw [hi]; rfl) rfl rfl rfl rfl rfl h.peak h.head ?_ hready le_rfl ?_
      h.written le_rfl fun j _ => h.ready j
    · show s.tailSoft ≤ myTS + cpycnt
      omega
    · show s.tailHard ≤ s.passed ∧ s.passed ≤ myTS + cpycnt
      omega
  next => exact h.moved (by rw [hi]; rfl) trivial

theorem Inv.endPop (h : s.Inv) {c : PopCookie} (hpushing : pushing (s.place i) = none)
    (hc : c.tail + c.count ≤ s.tailSoft) : (s.endPop i c).Inv := by
  unfold SharedRing.endPop
  split
  next => exact h.moved hpushing.symm hc
  next => exact h.moved hpushing.symm hc

theorem Inv.closingPop (h : s.Inv) {c : PopCookie} (hi : s.place i = .closingPop c) :
    (s.advance i).Inv := by
  have hready := h.ready i
  rw [hi] at hready
  have hready : c.tail + c.count ≤ s.tailSoft := hready
  have hhead := h.head
  have hsmall := h.small
  have hpassed := h.passed
  have hsoft := h.soft
  unfold SharedRing.advance
  rw [hi]
  dsimp only
  rw [Word.add_of_lt (by omega)]
  refine h.change rfl (by rw [hi]; rfl) rfl rfl rfl rfl rfl h.peak h.head le_rfl h.soft
    (Nat.le_max_left _ _) ⟨Nat.le_max_right _ _, ?_⟩ h.written trivial fun j _ => h.ready j
  exact Nat.max_le.mpr ⟨hpassed.2, hready⟩

/-! ## Runs -/

theorem Inv.finishing (h : s.Inv) (hi : s.place i = .finishing p) : (s.advance i).Inv := by
  unfold SharedRing.advance
  rw [hi]
  dsimp only
  split
  next => exact h
  next => exact h.moved (by rw [hi]; rfl) trivial

theorem Inv.poppingTail (h : s.Inv) {max min myHH : ℕ}
    (hi : s.place i = .poppingTail max min myHH) : (s.advance i).Inv := by
  have hready := h.ready i
  rw [hi] at hready
  unfold SharedRing.advance
  rw [hi]
  exact h.moved (by rw [hi]; rfl) hready

theorem Inv.advance (h : s.Inv) (hfit : s.Fit (.advance i)) : (s.advance i).Inv := by
  have hready := h.ready i
  cases hi : s.place i with
  | idle | popped | faulted =>
      unfold SharedRing.advance
      rw [hi]
      exact h
  | bounding p =>
      unfold SharedRing.advance
      rw [hi]
      exact h.bound hi
  | copying p bufEnd =>
      unfold SharedRing.advance
      rw [hi]
      exact h.copy hi
  | testing p => exact h.testing hi
  | storing p => exact h.storing hi
  | finishing p => exact h.finishing hi
  | closing p => exact (hfit.1 ⟨p, hi⟩).elim
  | poppingTail max min myHH => exact h.poppingTail hi
  | poppingSoft max min myHH myTH =>
      unfold SharedRing.advance
      rw [hi]
      exact h.loadSoft hi (hfit.2 max min myHH myTH hi)
  | exchanging myTS cpycnt relTS =>
      unfold SharedRing.advance
      rw [hi]
      exact h.exchange hi
  | ending c =>
      rw [hi] at hready
      unfold SharedRing.advance
      rw [hi]
      exact h.endPop (by rw [hi]; rfl) hready
  | closingPop c => exact h.closingPop hi

theorem Inv.step (h : s.Inv) (a : RingAction ι) (ha : s.Enabled a) (hfit : s.Fit a) :
    (s.perform a).Inv := by
  cases a with
  | push i elems => exact h.push ha elems hfit
  | tryBeginPop i max min =>
      show (s.tryBeginPop i max min).Inv
      unfold SharedRing.tryBeginPop
      split
      next => exact h
      next => exact h.moved (by rw [show s.place i = .idle from ha]; rfl) le_rfl
  | endPop i =>
      obtain ⟨c, hc⟩ := ha
      have hready := h.ready i
      rw [hc] at hready
      unfold perform
      dsimp only
      rw [hc]
      exact h.endPop (by rw [hc]; rfl) hready
  | advance i => exact h.advance hfit

theorem Reachable.inv {capacity : ℕ} (hcapacity : capacity < 2 ^ 64)
    (h : Reachable capacity Fit s) : s.Inv := by
  induction h with
  | start buffer => exact inv_initial hcapacity
  | step a _ ha hfit ih => exact ih.step a ha hfit

/-- The last store takes the hard head back to where the push has started. -/
theorem Inv.closing (h : s.Inv) (hi : s.Closing i) : ¬ (s.perform (.advance i)).Published := by
  obtain ⟨p, hp⟩ := hi
  have hpos := (h.lanes i p (by rw [hp]; rfl)).pos
  intro hpublished
  have hreturned : (p.myHS, p.size) ∈ (s.advance i).returned ∧
      (s.advance i).headHard = p.myHS := by
    unfold SharedRing.advance
    rw [hp]
    exact ⟨List.mem_cons_self, rfl⟩
  have hle := hpublished.returned _ hreturned.1
  have hhead : (s.perform (.advance i)).headHard = p.myHS := hreturned.2
  rw [hhead] at hle
  dsimp only at hle
  omega

omit [DecidableEq ι] in
/-- Neither before the last store nor before the load of the soft tail. -/
theorem fit_advance (hclosing : ∀ p, s.place i ≠ .closing p)
    (hsoft : ∀ max min myHH myTH, s.place i ≠ .poppingSoft max min myHH myTH) :
    s.Fit (.advance i) :=
  ⟨fun ⟨p, hp⟩ => hclosing p hp, fun max min myHH myTH hp => (hsoft max min myHH myTH hp).elim⟩

end SharedRing

end Beelzebub.Utils
