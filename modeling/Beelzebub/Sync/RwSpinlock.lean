import Beelzebub.Lib.Threads
import Mathlib.Data.Nat.Bitwise
import Mathlib.Logic.Function.Basic
import Mathlib.Tactic.IntervalCases
import Mathlib.Tactic.NormNum

/-!
# The spinlock for readers and writers

One word holds the number of readers, a bit that is set while there is a writer and a bit that
is set while one is waiting.  Readers register first and step back when they find a writer.

A step is one atomic operation on the word.
-/

namespace Beelzebub.Sync

/-! ## The code -/

/-- Where a thread is, between operations on the word. -/
inductive SpinPlace where
  | idle
  | tryBacking
  | readerLooking
  | readerRegistering
  | readerBacking
  | reader
  | tryingAsWriter (val : ℕ)
  | writerSwapping (val : ℕ)
  | writerMarking
  | writerLooking
  | writer
  | upgrading
  | upgradeLooking
  | downgrading
  deriving DecidableEq

/-- What a thread is between the calls. -/
inductive Status where
  | none
  | reader
  | writer
  deriving DecidableEq

namespace SpinPlace

/-- The thread is in the reader field. -/
def counted : SpinPlace → ℕ
  | .tryBacking => 1
  | .readerBacking => 1
  | .reader => 1
  | .upgrading => 1
  | .downgrading => 1
  | _ => 0

/-- The write bit is the thread's. -/
def writing : SpinPlace → ℕ
  | .writer => 1
  | .upgrading => 1
  | .upgradeLooking => 1
  | .downgrading => 1
  | _ => 0

def reads : SpinPlace → ℕ
  | .reader => 1
  | _ => 0

def HoldsAsWriter : SpinPlace → Prop
  | .writer => True
  | .downgrading => True
  | _ => False

def HoldsAsReader : SpinPlace → Prop
  | .reader => True
  | .upgrading => True
  | _ => False

/-- No operation of the thread is in progress, and this is what it is. -/
def status : SpinPlace → Option Status
  | .idle => some .none
  | .reader => some .reader
  | .writer => some .writer
  | _ => none

end SpinPlace

/-- The lock and its threads.  The last two fields are only for the record: what a thread was
when it made its last call, and what that call has returned. -/
structure RwSpinlock (ι : Type) where
  value : ℕ
  place : ι → SpinPlace
  caller : ι → Option Status
  result : ι → Option Bool

namespace RwSpinlock

variable {ι : Type}

def wait : ℕ := 1
def write : ℕ := 2
def read : ℕ := 4
def readMask : ℕ := 0xFFFFFFFC

def initial : RwSpinlock ι where
  value := 0
  place _ := .idle
  caller _ := none
  result _ := none

def fetchAdd (value : ℕ) : ℕ := (value + read) % 2 ^ 32
def fetchSub (value : ℕ) : ℕ := (value + 2 ^ 32 - read) % 2 ^ 32

/-- `&= ~Write`. -/
def clearWrite (value : ℕ) : ℕ := value &&& 0xFFFFFFFD

variable [DecidableEq ι]

def move (i : ι) (p : SpinPlace) (s : RwSpinlock ι) : RwSpinlock ι :=
  { s with place := Function.update s.place i p }

/-- A call is made. -/
def call (i : ι) (s : RwSpinlock ι) : RwSpinlock ι :=
  { s with
    caller := Function.update s.caller i (s.place i).status
    result := Function.update s.result i none }

/-- The call returns. -/
def finish (i : ι) (p : SpinPlace) (result : Bool) (s : RwSpinlock ι) : RwSpinlock ι :=
  { s.move i p with result := Function.update s.result i (some result) }

def store (value : ℕ) (s : RwSpinlock ι) : RwSpinlock ι := { s with value := value }

/-- The registration of `TryAcquireAsReader`. -/
def tryAcquireAsReader (i : ι) (s : RwSpinlock ι) : RwSpinlock ι :=
  if s.value &&& (wait ||| write) ≠ 0 then
    ((s.call i).store (fetchAdd s.value)).move i .tryBacking
  else ((s.call i).store (fetchAdd s.value)).finish i .reader true

/-- The load of `AcquireAsReader`. -/
def lookAsReader (i : ι) (s : RwSpinlock ι) : RwSpinlock ι :=
  if s.value &&& (wait ||| write) ≠ 0 then s.move i .readerLooking
  else s.move i .readerRegistering

def acquireAsReader (i : ι) (s : RwSpinlock ι) : RwSpinlock ι := (s.call i).lookAsReader i

/-- The load of `TryAcquireAsWriter`. -/
def tryAcquireAsWriter (i : ι) (s : RwSpinlock ι) : RwSpinlock ι :=
  if s.value ≥ write then (s.call i).finish i .idle false
  else (s.call i).move i (.tryingAsWriter s.value)

/-- Where `AcquireAsWriter` goes on when it cannot swap. -/
def markNext (val : ℕ) : SpinPlace := if val &&& wait = 0 then .writerMarking else .writerLooking

/-- Where the loop of `AcquireAsWriter` goes on with what it has loaded. -/
def loopNext (val : ℕ) : SpinPlace := if val < write then .writerSwapping val else markNext val

/-- The first load of `AcquireAsWriter`. -/
def acquireAsWriter (i : ι) (s : RwSpinlock ι) : RwSpinlock ι :=
  (s.call i).move i (loopNext s.value)

/-- `TestSet(WriteBit)` of `UpgradeToWriter`. -/
def upgradeToWriter (i : ι) (s : RwSpinlock ι) : RwSpinlock ι :=
  if s.value &&& write ≠ 0 then (s.call i).finish i .reader false
  else ((s.call i).store (s.value ||| write)).move i .upgrading

def releaseAsReader (i : ι) (s : RwSpinlock ι) : RwSpinlock ι :=
  ((s.call i).store (fetchSub s.value)).finish i .idle true

def releaseAsWriter (i : ι) (s : RwSpinlock ι) : RwSpinlock ι :=
  ((s.call i).store (clearWrite s.value)).finish i .idle true

/-- `+= Read` of `DowngradeToReader`. -/
def downgradeToReader (i : ι) (s : RwSpinlock ι) : RwSpinlock ι :=
  ((s.call i).store (fetchAdd s.value)).move i .downgrading

/-- The next operation of a thread on the word. -/
def advance (i : ι) (s : RwSpinlock ι) : RwSpinlock ι :=
  match s.place i with
  | .idle => s
  | .tryBacking => (s.store (fetchSub s.value)).finish i .idle false
  | .readerLooking => s.lookAsReader i
  | .readerRegistering =>
      if s.value &&& (wait ||| write) = 0 then
        (s.store (fetchAdd s.value)).finish i .reader true
      else (s.store (fetchAdd s.value)).move i .readerBacking
  | .readerBacking => (s.store (fetchSub s.value)).move i .readerLooking
  | .reader => s
  | .tryingAsWriter val =>
      if s.value = val then (s.store (val ||| write)).finish i .writer true
      else s.finish i .idle false
  | .writerSwapping val =>
      if s.value = val then (s.store write).finish i .writer true
      else s.move i (markNext s.value)
  | .writerMarking => (s.store (s.value ||| wait)).move i .writerLooking
  | .writerLooking => if s.value > wait then s else s.move i (loopNext s.value)
  | .writer => s
  | .upgrading => (s.store (fetchSub s.value)).move i .upgradeLooking
  | .upgradeLooking => if s.value &&& readMask ≠ 0 then s else s.finish i .writer true
  | .downgrading => (s.store (clearWrite s.value)).finish i .reader true

/-- A call with its first operation on the word, or the next one of a thread. -/
inductive Action (ι : Type) where
  | tryAcquireAsReader (i : ι)
  | acquireAsReader (i : ι)
  | tryAcquireAsWriter (i : ι)
  | acquireAsWriter (i : ι)
  | upgradeToWriter (i : ι)
  | releaseAsReader (i : ι)
  | releaseAsWriter (i : ι)
  | downgradeToReader (i : ι)
  | advance (i : ι)

def perform (s : RwSpinlock ι) : Action ι → RwSpinlock ι
  | .tryAcquireAsReader i => s.tryAcquireAsReader i
  | .acquireAsReader i => s.acquireAsReader i
  | .tryAcquireAsWriter i => s.tryAcquireAsWriter i
  | .acquireAsWriter i => s.acquireAsWriter i
  | .upgradeToWriter i => s.upgradeToWriter i
  | .releaseAsReader i => s.releaseAsReader i
  | .releaseAsWriter i => s.releaseAsWriter i
  | .downgradeToReader i => s.downgradeToReader i
  | .advance i => s.advance i

omit [DecidableEq ι] in
/-- The operations are used in matching pairs. -/
def Enabled (s : RwSpinlock ι) : Action ι → Prop
  | .tryAcquireAsReader i => s.place i = .idle
  | .acquireAsReader i => s.place i = .idle
  | .tryAcquireAsWriter i => s.place i = .idle
  | .acquireAsWriter i => s.place i = .idle
  | .upgradeToWriter i => s.place i = .reader
  | .releaseAsReader i => s.place i = .reader
  | .releaseAsWriter i => s.place i = .writer
  | .downgradeToReader i => s.place i = .writer
  | .advance _ => True

inductive Reachable : RwSpinlock ι → Prop
  | start : Reachable initial
  | step {s : RwSpinlock ι} (a : Action ι) : Reachable s → s.Enabled a → Reachable (s.perform a)

omit [DecidableEq ι] in
def getReaderCount (s : RwSpinlock ι) : ℕ := (s.value &&& readMask) >>> 2

variable [Fintype ι]

/-! ## What is asked -/

/-- The writer is the only holder, one thread has the write bit while it is set, a call that
returns false leaves its caller what it was, and between the calls the reader field is the
number of readers. -/
structure Sound (s : RwSpinlock ι) : Prop where
  exclusive : ∀ i j, (s.place i).HoldsAsWriter →
    (s.place j).HoldsAsWriter ∨ (s.place j).HoldsAsReader → i = j
  writeBit : ∀ i j, (s.place i).writing = 1 → (s.place j).writing = 1 → i = j
  writeBit_iff : s.value &&& write ≠ 0 ↔ ∃ i, (s.place i).writing = 1
  failed : ∀ i, s.result i = some false → (s.place i).status = s.caller i
  readers : (∀ i, (s.place i).status ≠ none) →
    s.getReaderCount = Threads.total SpinPlace.reads s.place

/-! ## The word -/

section Word

variable {r b m : ℕ}

theorem and_word (hb : b < 4) : (4 * r + b) &&& m = 4 * (r &&& m / 4) + (b &&& m % 4) := by
  have hdiv := Nat.and_div_two_pow (a := 4 * r + b) (b := m) (n := 2)
  have hmod := Nat.and_mod_two_pow (a := 4 * r + b) (b := m) (n := 2)
  rw [show (4 * r + b) / 2 ^ 2 = r by omega] at hdiv
  rw [show (4 * r + b) % 2 ^ 2 = b by omega] at hmod
  have hsplit := Nat.div_add_mod ((4 * r + b) &&& m) (2 ^ 2)
  rw [hdiv, hmod] at hsplit
  exact hsplit.symm

theorem or_word (hb : b < 4) : (4 * r + b) ||| m = 4 * (r ||| m / 4) + (b ||| m % 4) := by
  have hdiv := Nat.or_div_two_pow (a := 4 * r + b) (b := m) (n := 2)
  have hmod := Nat.or_mod_two_pow (a := 4 * r + b) (b := m) (n := 2)
  rw [show (4 * r + b) / 2 ^ 2 = r by omega] at hdiv
  rw [show (4 * r + b) % 2 ^ 2 = b by omega] at hmod
  have hsplit := Nat.div_add_mod ((4 * r + b) ||| m) (2 ^ 2)
  rw [hdiv, hmod] at hsplit
  exact hsplit.symm

theorem and_low (hb : b < 4) : (4 * r + b) &&& (wait ||| write) = b := by
  rw [and_word hb, show (wait ||| write) / 4 = 0 from rfl, Nat.and_zero, Nat.mul_zero, Nat.zero_add]
  interval_cases b <;> rfl

theorem and_write (hb : b < 4) : (4 * r + b) &&& write = b / 2 * 2 := by
  rw [and_word hb, show write / 4 = 0 from rfl, Nat.and_zero, Nat.mul_zero, Nat.zero_add]
  interval_cases b <;> rfl

theorem or_wait (hb : b < 4) : (4 * r + b) ||| wait = 4 * r + (b / 2 * 2 + 1) := by
  rw [or_word hb, show wait / 4 = 0 from rfl, Nat.or_zero]
  interval_cases b <;> rfl

theorem or_write (hb : b < 4) : (4 * r + b) ||| write = 4 * r + (2 + b % 2) := by
  rw [or_word hb, show write / 4 = 0 from rfl, Nat.or_zero]
  interval_cases b <;> rfl

theorem clearWrite_word (hb : b < 4) (hr : r < 2 ^ 30) : clearWrite (4 * r + b) = 4 * r + b % 2 := by
  rw [clearWrite, and_word hb, show (0xFFFFFFFD : ℕ) / 4 = 2 ^ 30 - 1 from rfl,
    Nat.and_two_pow_sub_one_of_lt_two_pow hr]
  interval_cases b <;> rfl

theorem and_readMask (hb : b < 4) (hr : r < 2 ^ 30) : (4 * r + b) &&& readMask = 4 * r := by
  rw [and_word hb, show readMask / 4 = 2 ^ 30 - 1 from rfl,
    Nat.and_two_pow_sub_one_of_lt_two_pow hr]
  interval_cases b <;> rfl

end Word

/-! ## The invariant -/

/-- A call that has returned false has left its caller what it was; a try is made by a thread
that does not hold the lock, and what is swapped for has neither readers nor a writer. -/
def Recorded (caller : Option Status) (result : Option Bool) (p : SpinPlace) : Prop :=
  (result = some false → p.status = caller) ∧
    match p with
    | .tryBacking => caller = some .none
    | .tryingAsWriter val => caller = some .none ∧ val < write
    | .writerSwapping val => val < write
    | _ => True

/-- The fields of the word are what the threads have put in. -/
structure Inv (s : RwSpinlock ι) (t : ℕ) : Prop where
  value : s.value = 4 * Threads.total SpinPlace.counted s.place +
    (2 * Threads.total SpinPlace.writing s.place + t)
  bit : t ≤ 1
  one : Threads.total SpinPlace.writing s.place ≤ 1
  alone : ∀ i j, (s.place i).HoldsAsWriter → s.place j ≠ .reader
  recorded : ∀ i, Recorded (s.caller i) (s.result i) (s.place i)

variable {s : RwSpinlock ι} {i j : ι} {t : ℕ} {p q : SpinPlace} {w : SpinPlace → ℕ}

omit [DecidableEq ι] in
theorem counted_le : Threads.total SpinPlace.counted s.place ≤ Fintype.card ι := by
  refine Threads.total_le_card fun p => ?_
  cases p <;> simp [SpinPlace.counted]

/-- One thread goes from `q` to `p`, the counters with it. -/
theorem Inv.change {s' : RwSpinlock ι} {t' : ℕ} (h : s.Inv t) (hq : s.place i = q)
    (hplace : s'.place = Function.update s.place i p) (hbit : t' ≤ 1)
    (hvalue : s'.value + 4 * q.counted + 2 * q.writing + t =
      s.value + 4 * p.counted + 2 * p.writing + t')
    (hone : p.writing ≤ q.writing ∨ Threads.total SpinPlace.writing s.place = 0)
    (hwriter : p.HoldsAsWriter → ∀ j, j ≠ i → s.place j ≠ .reader)
    (hreader : p = .reader → ∀ j, j ≠ i → ¬ (s.place j).HoldsAsWriter)
    (hcaller : ∀ j, j ≠ i → s'.caller j = s.caller j)
    (hresult : ∀ j, j ≠ i → s'.result j = s.result j)
    (hrecorded : Recorded (s'.caller i) (s'.result i) p) : s'.Inv t' := by
  have hcounted' := Threads.total_move (w := SpinPlace.counted) (a := p) hq
  have hwriting' := Threads.total_move (w := SpinPlace.writing) (a := p) hq
  rw [← hplace] at hcounted' hwriting'
  have hv := h.value
  have ho := h.one
  have hle : p.writing ≤ 1 := by
    cases p <;> simp [SpinPlace.writing]
  refine ⟨by omega, hbit, by omega, ?_, ?_⟩
  · intro j k hj hk
    rw [hplace] at hj hk
    by_cases hji : j = i
    · rw [hji, Function.update_self] at hj
      by_cases hki : k = i
      · rw [hki, Function.update_self] at hk
        rw [hk] at hj
        exact hj
      · rw [Function.update_of_ne hki] at hk
        exact hwriter hj k hki hk
    · rw [Function.update_of_ne hji] at hj
      by_cases hki : k = i
      · rw [hki, Function.update_self] at hk
        exact hreader hk j hji hj
      · rw [Function.update_of_ne hki] at hk
        exact h.alone j k hj hk
  · intro j
    rw [hplace]
    by_cases hji : j = i
    · rw [hji, Function.update_self]
      exact hrecorded
    · rw [Function.update_of_ne hji, hcaller j hji, hresult j hji]
      exact h.recorded j

/-! ### Who else is there -/

omit [DecidableEq ι] [Fintype ι] in
theorem writing_of_holds (hp : p.HoldsAsWriter) : p.writing = 1 := by
  cases p with
  | writer | downgrading => rfl
  | _ => cases hp

omit [DecidableEq ι] in
theorem no_writer (hnone : Threads.total SpinPlace.writing s.place = 0) (j : ι) :
    ¬ (s.place j).HoldsAsWriter := by
  intro hj
  have hzero := Threads.total_eq_zero.mp hnone j
  rw [writing_of_holds hj] at hzero
  cases hzero

omit [DecidableEq ι] in
theorem no_reader (hnone : Threads.total SpinPlace.counted s.place = 0) (j : ι) :
    s.place j ≠ .reader := by
  intro hj
  have hzero := Threads.total_eq_zero.mp hnone j
  rw [hj] at hzero
  cases hzero

theorem Inv.writing_unique (h : s.Inv t) (hi : (s.place i).writing = 1)
    (hj : (s.place j).writing = 1) : i = j := by
  by_contra hij
  have hle := Threads.add_le_total SpinPlace.writing s.place hij
  have hone := h.one
  omega

/-! ### What the operations do to the word -/

omit [DecidableEq ι] in
theorem Inv.low (h : s.Inv t) : 2 * Threads.total SpinPlace.writing s.place + t < 4 := by
  have hone := h.one
  have hbit := h.bit
  omega

omit [DecidableEq ι] in
theorem Inv.and_low (h : s.Inv t) :
    s.value &&& (wait ||| write) = 2 * Threads.total SpinPlace.writing s.place + t := by
  rw [h.value]
  exact RwSpinlock.and_low h.low

omit [DecidableEq ι] in
theorem Inv.fetchAdd (h : s.Inv t) (hn : Fintype.card ι < 2 ^ 29) :
    fetchAdd s.value = s.value + 4 := by
  have hvalue := h.value
  have hlow := h.low
  have hle := counted_le (s := s)
  unfold RwSpinlock.fetchAdd read
  omega

omit [DecidableEq ι] in
theorem Inv.fetchSub (h : s.Inv t) (hn : Fintype.card ι < 2 ^ 29) (hi : (s.place i).counted = 1) :
    fetchSub s.value + 4 = s.value := by
  have hvalue := h.value
  have hlow := h.low
  have hle := counted_le (s := s)
  have hcount := Threads.le_total SpinPlace.counted s.place i
  unfold RwSpinlock.fetchSub read
  omega

omit [DecidableEq ι] in
theorem Inv.clearWrite (h : s.Inv t) (hn : Fintype.card ι < 2 ^ 29)
    (hi : (s.place i).writing = 1) : clearWrite s.value + 2 = s.value := by
  have hvalue := h.value
  have hbit := h.bit
  have hone := h.one
  have hle := counted_le (s := s)
  have hwriting := Threads.le_total SpinPlace.writing s.place i
  rw [hvalue, clearWrite_word h.low (by omega)]
  omega

omit [DecidableEq ι] in
theorem Inv.and_write (h : s.Inv t) :
    s.value &&& write = 2 * Threads.total SpinPlace.writing s.place := by
  have hbit := h.bit
  rw [h.value, RwSpinlock.and_write h.low]
  omega

omit [DecidableEq ι] in
theorem Inv.or_write (h : s.Inv t) (hnone : Threads.total SpinPlace.writing s.place = 0) :
    s.value ||| write = s.value + 2 := by
  have hvalue := h.value
  have hbit := h.bit
  rw [hvalue, RwSpinlock.or_write h.low]
  omega

omit [DecidableEq ι] in
theorem Inv.or_wait (h : s.Inv t) : (s.value ||| wait) + t = s.value + 1 := by
  have hvalue := h.value
  have hbit := h.bit
  rw [hvalue, RwSpinlock.or_wait h.low]
  omega

omit [DecidableEq ι] in
theorem Inv.and_readMask (h : s.Inv t) (hn : Fintype.card ι < 2 ^ 29) :
    s.value &&& readMask = 4 * Threads.total SpinPlace.counted s.place := by
  have hle := counted_le (s := s)
  rw [h.value, RwSpinlock.and_readMask h.low (by omega)]

/-! ### One step -/

/-- A step inside a call. -/
theorem Inv.moved {value t' : ℕ} (h : s.Inv t) (hq : s.place i = q) (hbit : t' ≤ 1)
    (hvalue : value + 4 * q.counted + 2 * q.writing + t =
      s.value + 4 * p.counted + 2 * p.writing + t')
    (hone : p.writing ≤ q.writing) (hwriter : ¬ p.HoldsAsWriter) (hreader : p ≠ .reader)
    (hrecorded : Recorded (s.caller i) (s.result i) q → Recorded (s.caller i) (s.result i) p) :
    ((s.store value).move i p).Inv t' := by
  have hi := h.recorded i
  rw [hq] at hi
  exact h.change hq rfl hbit hvalue (Or.inl hone) (fun hp => (hwriter hp).elim)
    (fun hp => (hreader hp).elim) (fun _ _ => rfl) (fun _ _ => rfl) (hrecorded hi)

/-- A call returns. -/
theorem Inv.finished {value t' : ℕ} {result : Bool} (h : s.Inv t) (hq : s.place i = q)
    (hbit : t' ≤ 1)
    (hvalue : value + 4 * q.counted + 2 * q.writing + t =
      s.value + 4 * p.counted + 2 * p.writing + t')
    (hone : p.writing ≤ q.writing ∨ Threads.total SpinPlace.writing s.place = 0)
    (hwriter : p.HoldsAsWriter → ∀ j, j ≠ i → s.place j ≠ .reader)
    (hreader : p = .reader → ∀ j, j ≠ i → ¬ (s.place j).HoldsAsWriter)
    (hrecorded : Recorded (s.caller i) (s.result i) q →
      Recorded (s.caller i) (some result) p) : ((s.store value).finish i p result).Inv t' := by
  have hi := h.recorded i
  rw [hq] at hi
  refine h.change hq rfl hbit hvalue hone hwriter hreader (fun _ _ => rfl)
    (fun j hj => Function.update_of_ne hj _ _) ?_
  show Recorded (s.caller i) (Function.update s.result i (some result) i) p
  rw [Function.update_self]
  exact hrecorded hi

/-- A call is made, and does not return at once. -/
theorem Inv.called {value t' : ℕ} (h : s.Inv t) (hq : s.place i = q) (hbit : t' ≤ 1)
    (hvalue : value + 4 * q.counted + 2 * q.writing + t =
      s.value + 4 * p.counted + 2 * p.writing + t')
    (hone : p.writing ≤ q.writing ∨ Threads.total SpinPlace.writing s.place = 0)
    (hwriter : p.HoldsAsWriter → ∀ j, j ≠ i → s.place j ≠ .reader) (hreader : p ≠ .reader)
    (hrecorded : Recorded q.status none p) : (((s.call i).store value).move i p).Inv t' := by
  refine h.change hq rfl hbit hvalue hone hwriter (fun hp => (hreader hp).elim)
    (fun j hj => Function.update_of_ne hj _ _) (fun j hj => Function.update_of_ne hj _ _) ?_
  show Recorded (Function.update s.caller i (s.place i).status i)
    (Function.update s.result i none i) p
  rw [Function.update_self, Function.update_self, hq]
  exact hrecorded

/-- A call is made and returns. -/
theorem Inv.calledFinished {value t' : ℕ} {result : Bool} (h : s.Inv t) (hq : s.place i = q)
    (hbit : t' ≤ 1)
    (hvalue : value + 4 * q.counted + 2 * q.writing + t =
      s.value + 4 * p.counted + 2 * p.writing + t')
    (hone : p.writing ≤ q.writing) (hwriter : ¬ p.HoldsAsWriter)
    (hreader : p = .reader → ∀ j, j ≠ i → ¬ (s.place j).HoldsAsWriter)
    (hrecorded : Recorded q.status (some result) p) :
    (((s.call i).store value).finish i p result).Inv t' := by
  refine h.change hq rfl hbit hvalue (Or.inl hone) (fun hp => (hwriter hp).elim) hreader
    (fun j hj => Function.update_of_ne hj _ _) ?_ ?_
  · intro j hj
    show Function.update (Function.update s.result i none) i (some result) j = s.result j
    rw [Function.update_of_ne hj, Function.update_of_ne hj]
  · show Recorded (Function.update s.caller i (s.place i).status i)
      (Function.update (Function.update s.result i none) i (some result) i) p
    rw [Function.update_self, Function.update_self, hq]
    exact hrecorded

theorem Inv.tryAcquireAsReader (h : s.Inv t) (hn : Fintype.card ι < 2 ^ 29)
    (hq : s.place i = .idle) : (s.tryAcquireAsReader i).Inv t := by
  have hadd := h.fetchAdd hn
  have hlow := h.and_low
  unfold RwSpinlock.tryAcquireAsReader
  split
  next =>
    exact h.called hq h.bit (by rw [hadd]; rfl) (Or.inl le_rfl) (fun hp => hp.elim) nofun
      ⟨nofun, rfl⟩
  next hfree =>
    have hnone : Threads.total SpinPlace.writing s.place = 0 := by
      have := not_not.mp hfree
      omega
    exact h.calledFinished hq h.bit (by rw [hadd]; rfl) le_rfl id (fun _ j _ => no_writer hnone j)
      ⟨nofun, trivial⟩

/-- Before the load a thread may be in the call or about to make it. -/
theorem Inv.lookAsReader (h : s.Inv t) (hq : s.place i = q) (hcounted : q.counted = 0)
    (hwriting : q.writing = 0) (hrecorded : s.result i = some false → s.caller i = none) :
    (s.lookAsReader i).Inv t := by
  unfold RwSpinlock.lookAsReader
  have hvalue : ∀ {p : SpinPlace}, p.counted = 0 → p.writing = 0 →
      s.value + 4 * q.counted + 2 * q.writing + t =
        s.value + 4 * p.counted + 2 * p.writing + t := by
    intro p hp hp'
    rw [hcounted, hwriting, hp, hp']
  split
  · exact h.moved hq h.bit (hvalue rfl rfl) (Nat.zero_le _) id nofun
      fun _ => ⟨fun hfalse => (hrecorded hfalse).symm, trivial⟩
  · exact h.moved hq h.bit (hvalue rfl rfl) (Nat.zero_le _) id nofun
      fun _ => ⟨fun hfalse => (hrecorded hfalse).symm, trivial⟩

theorem Inv.tryBacking (h : s.Inv t) (hn : Fintype.card ι < 2 ^ 29)
    (hq : s.place i = .tryBacking) : (s.advance i).Inv t := by
  unfold RwSpinlock.advance
  rw [hq]
  dsimp only
  have hsub := h.fetchSub hn (i := i) (by rw [hq]; rfl)
  refine h.finished hq h.bit ?_ (Or.inl le_rfl) (fun hp => hp.elim) nofun
    fun hrecorded => ⟨fun _ => hrecorded.2.symm, trivial⟩
  show RwSpinlock.fetchSub s.value + 4 * 1 + 2 * 0 + t = s.value + 4 * 0 + 2 * 0 + t
  omega

theorem Inv.readerRegistering (h : s.Inv t) (hn : Fintype.card ι < 2 ^ 29)
    (hq : s.place i = .readerRegistering) : (s.advance i).Inv t := by
  have hadd := h.fetchAdd hn
  have hlow := h.and_low
  unfold RwSpinlock.advance
  rw [hq]
  dsimp only
  split
  next hfree =>
    have hnone : Threads.total SpinPlace.writing s.place = 0 := by omega
    exact h.finished hq h.bit (by rw [hadd]; rfl) (Or.inl le_rfl) (fun hp => hp.elim)
      (fun _ j _ => no_writer hnone j) fun _ => ⟨nofun, trivial⟩
  next =>
    exact h.moved hq h.bit (by rw [hadd]; rfl) le_rfl id nofun
      fun hrecorded => ⟨hrecorded.1, trivial⟩

theorem Inv.readerBacking (h : s.Inv t) (hn : Fintype.card ι < 2 ^ 29)
    (hq : s.place i = .readerBacking) :
    (s.advance i).Inv t := by
  unfold RwSpinlock.advance
  rw [hq]
  dsimp only
  have hsub := h.fetchSub hn (i := i) (by rw [hq]; rfl)
  refine h.moved hq h.bit ?_ le_rfl id nofun fun hrecorded => ⟨hrecorded.1, trivial⟩
  show RwSpinlock.fetchSub s.value + 4 * 1 + 2 * 0 + t = s.value + 4 * 0 + 2 * 0 + t
  omega

theorem Inv.tryAcquireAsWriter (h : s.Inv t) (hq : s.place i = .idle) :
    (s.tryAcquireAsWriter i).Inv t := by
  unfold RwSpinlock.tryAcquireAsWriter
  split
  next => exact h.calledFinished hq h.bit rfl le_rfl id nofun ⟨fun _ => rfl, trivial⟩
  next hval =>
    exact h.called hq h.bit rfl (Or.inl le_rfl) (fun hp => hp.elim) nofun
      ⟨nofun, rfl, Nat.lt_of_not_le hval⟩

/-- The word is swapped when there is nobody in it. -/
theorem Inv.swapped (h : s.Inv t) {value t' : ℕ} (hq : s.place i = q) (hcounted : q.counted = 0)
    (hwriting : q.writing = 0) (hfree : s.value < 2) (hvalue : value = 2 + t') (hbit : t' ≤ 1) :
    ((s.store value).finish i .writer true).Inv t' := by
  have hsum := h.value
  have hlow := h.bit
  refine h.finished hq hbit ?_ (Or.inr (by omega)) (fun _ j _ => no_reader (by omega) j) nofun
    fun _ => ⟨nofun, trivial⟩
  rw [hcounted, hwriting]
  show value + 4 * 0 + 2 * 0 + t = s.value + 4 * 0 + 2 * 1 + t'
  omega

theorem Inv.tryingAsWriter (h : s.Inv t) {val : ℕ} (hq : s.place i = .tryingAsWriter val) :
    (s.advance i).Inv t := by
  have hi := h.recorded i
  rw [hq] at hi
  have hval : val < 2 := hi.2.2
  unfold RwSpinlock.advance
  rw [hq]
  dsimp only
  split
  next heq =>
    have hsum := h.value
    have hnone : Threads.total SpinPlace.writing s.place = 0 := by omega
    have hor := h.or_write hnone
    rw [heq] at hor
    exact h.swapped hq rfl rfl (by omega) (by omega) h.bit
  next =>
    exact h.finished hq h.bit rfl (Or.inl le_rfl) (fun hp => hp.elim) nofun
      fun hrecorded => ⟨fun _ => hrecorded.2.1.symm, trivial⟩

/-- A thread in the loop of `AcquireAsWriter` is not in the word. -/
structure Outside (caller : Option Status) (result : Option Bool) (p : SpinPlace) : Prop where
  counted : p.counted = 0
  writing : p.writing = 0
  not_writer : ¬ p.HoldsAsWriter
  not_reader : p ≠ .reader
  recorded : Recorded caller result p

theorem outside_markNext {caller : Option Status} {result : Option Bool} (val : ℕ)
    (h : result = some false → caller = none) : Outside caller result (markNext val) := by
  unfold markNext
  split
  · exact ⟨rfl, rfl, id, nofun, fun hfalse => (h hfalse).symm, trivial⟩
  · exact ⟨rfl, rfl, id, nofun, fun hfalse => (h hfalse).symm, trivial⟩

theorem outside_loopNext {caller : Option Status} {result : Option Bool} (val : ℕ)
    (h : result = some false → caller = none) : Outside caller result (loopNext val) := by
  unfold loopNext
  split
  next hval => exact ⟨rfl, rfl, id, nofun, fun hfalse => (h hfalse).symm, hval⟩
  next => exact outside_markNext val h

theorem Inv.acquireAsWriter (h : s.Inv t) (hq : s.place i = .idle) :
    (s.acquireAsWriter i).Inv t := by
  have hout := @outside_loopNext (some .none) none s.value nofun
  refine h.called hq h.bit ?_ (Or.inl ?_) (fun hp => (hout.not_writer hp).elim) hout.not_reader
    hout.recorded
  · rw [hout.counted, hout.writing]
    rfl
  · rw [hout.writing]
    exact Nat.zero_le _

/-- The thread stays in the loop. -/
theorem Inv.outside (h : s.Inv t) (hq : s.place i = q) (hcounted : q.counted = 0)
    (hwriting : q.writing = 0) (hout : Outside (s.caller i) (s.result i) p) :
    (s.move i p).Inv t := by
  refine h.moved hq h.bit ?_ ?_ hout.not_writer hout.not_reader fun _ => hout.recorded
  · rw [hcounted, hwriting, hout.counted, hout.writing]
  · rw [hout.writing]
    exact Nat.zero_le _

theorem Inv.writerSwapping (h : s.Inv t) {val : ℕ} (hq : s.place i = .writerSwapping val) :
    ∃ t', (s.advance i).Inv t' := by
  have hi := h.recorded i
  rw [hq] at hi
  have hval : val < 2 := hi.2
  unfold RwSpinlock.advance
  rw [hq]
  dsimp only
  split
  next heq => exact ⟨0, h.swapped hq rfl rfl (by omega) rfl (Nat.zero_le 1)⟩
  next =>
    exact ⟨t, h.outside hq rfl rfl (outside_markNext _ fun hfalse => (hi.1 hfalse).symm)⟩

theorem Inv.writerMarking (h : s.Inv t) (hq : s.place i = .writerMarking) :
    (s.advance i).Inv 1 := by
  unfold RwSpinlock.advance
  rw [hq]
  dsimp only
  have hor := h.or_wait
  refine h.moved hq le_rfl ?_ le_rfl id nofun fun hrecorded => ⟨hrecorded.1, trivial⟩
  show (s.value ||| wait) + 4 * 0 + 2 * 0 + t = s.value + 4 * 0 + 2 * 0 + 1
  exact hor

theorem Inv.writerLooking (h : s.Inv t) (hq : s.place i = .writerLooking) :
    (s.advance i).Inv t := by
  have hi := h.recorded i
  rw [hq] at hi
  unfold RwSpinlock.advance
  rw [hq]
  dsimp only
  split
  next => exact h
  next => exact h.outside hq rfl rfl (outside_loopNext _ fun hfalse => (hi.1 hfalse).symm)

theorem Inv.upgradeToWriter (h : s.Inv t) (hq : s.place i = .reader) :
    (s.upgradeToWriter i).Inv t := by
  have hand := h.and_write
  unfold RwSpinlock.upgradeToWriter
  split
  next =>
    exact h.calledFinished hq h.bit rfl le_rfl id (fun _ j _ hj => h.alone j i hj hq)
      ⟨fun _ => rfl, trivial⟩
  next hfree =>
    have hnone : Threads.total SpinPlace.writing s.place = 0 := by
      have := not_not.mp hfree
      omega
    exact h.called hq h.bit (by rw [h.or_write hnone]; rfl) (Or.inr hnone) (fun hp => hp.elim) nofun
      ⟨nofun, trivial⟩

theorem Inv.upgrading (h : s.Inv t) (hn : Fintype.card ι < 2 ^ 29) (hq : s.place i = .upgrading) :
    (s.advance i).Inv t := by
  unfold RwSpinlock.advance
  rw [hq]
  dsimp only
  have hsub := h.fetchSub hn (i := i) (by rw [hq]; rfl)
  refine h.moved hq h.bit ?_ le_rfl id nofun fun hrecorded => ⟨hrecorded.1, trivial⟩
  show RwSpinlock.fetchSub s.value + 4 * 1 + 2 * 1 + t = s.value + 4 * 0 + 2 * 1 + t
  omega

/-- The readers are gone, and those that step back do not hold the lock. -/
theorem Inv.upgradeLooking (h : s.Inv t) (hn : Fintype.card ι < 2 ^ 29)
    (hq : s.place i = .upgradeLooking) : (s.advance i).Inv t := by
  have hand := h.and_readMask hn
  unfold RwSpinlock.advance
  rw [hq]
  dsimp only
  split
  next => exact h
  next hfree =>
    have hnone : Threads.total SpinPlace.counted s.place = 0 := by
      have := not_not.mp hfree
      omega
    exact h.finished hq h.bit rfl (Or.inl le_rfl) (fun _ j _ => no_reader hnone j) nofun
      fun _ => ⟨nofun, trivial⟩

theorem Inv.releaseAsReader (h : s.Inv t) (hn : Fintype.card ι < 2 ^ 29)
    (hq : s.place i = .reader) : (s.releaseAsReader i).Inv t := by
  have hsub := h.fetchSub hn (i := i) (by rw [hq]; rfl)
  refine h.calledFinished hq h.bit ?_ le_rfl id nofun ⟨nofun, trivial⟩
  show RwSpinlock.fetchSub s.value + 4 * 1 + 2 * 0 + t = s.value + 4 * 0 + 2 * 0 + t
  omega

theorem Inv.releaseAsWriter (h : s.Inv t) (hn : Fintype.card ι < 2 ^ 29)
    (hq : s.place i = .writer) : (s.releaseAsWriter i).Inv t := by
  have hclear := h.clearWrite hn (i := i) (by rw [hq]; rfl)
  refine h.calledFinished hq h.bit ?_ (Nat.zero_le _) id nofun ⟨nofun, trivial⟩
  show RwSpinlock.clearWrite s.value + 4 * 0 + 2 * 1 + t = s.value + 4 * 0 + 2 * 0 + t
  omega

theorem Inv.downgradeToReader (h : s.Inv t) (hn : Fintype.card ι < 2 ^ 29)
    (hq : s.place i = .writer) : (s.downgradeToReader i).Inv t := by
  have hadd := h.fetchAdd hn
  refine h.called hq h.bit ?_ (Or.inl le_rfl) (fun _ j _ => h.alone i j ?_) nofun ⟨nofun, trivial⟩
  · show RwSpinlock.fetchAdd s.value + 4 * 0 + 2 * 1 + t = s.value + 4 * 1 + 2 * 1 + t
    omega
  · rw [hq]
    trivial

theorem Inv.downgrading (h : s.Inv t) (hn : Fintype.card ι < 2 ^ 29)
    (hq : s.place i = .downgrading) :
    (s.advance i).Inv t := by
  unfold RwSpinlock.advance
  rw [hq]
  dsimp only
  have hclear := h.clearWrite hn (i := i) (by rw [hq]; rfl)
  refine h.finished hq h.bit ?_ (Or.inl (Nat.zero_le _)) (fun hp => hp.elim) ?_
    fun _ => ⟨nofun, trivial⟩
  · show RwSpinlock.clearWrite s.value + 4 * 1 + 2 * 1 + t = s.value + 4 * 1 + 2 * 0 + t
    omega
  · intro _ j hj hwriter
    exact hj (h.writing_unique (writing_of_holds hwriter) (by rw [hq]; rfl))

/-! ## Runs -/

theorem Inv.advance (h : s.Inv t) (hn : Fintype.card ι < 2 ^ 29) (i : ι) :
    ∃ t', (s.advance i).Inv t' := by
  have hi := h.recorded i
  cases hq : s.place i with
  | idle | reader | writer =>
      refine ⟨t, ?_⟩
      unfold RwSpinlock.advance
      rw [hq]
      exact h
  | tryBacking => exact ⟨t, h.tryBacking hn hq⟩
  | readerLooking =>
      rw [hq] at hi
      refine ⟨t, ?_⟩
      unfold RwSpinlock.advance
      rw [hq]
      exact h.lookAsReader hq rfl rfl fun hfalse => (hi.1 hfalse).symm
  | readerRegistering => exact ⟨t, h.readerRegistering hn hq⟩
  | readerBacking => exact ⟨t, h.readerBacking hn hq⟩
  | tryingAsWriter val => exact ⟨t, h.tryingAsWriter hq⟩
  | writerSwapping val => exact h.writerSwapping hq
  | writerMarking => exact ⟨1, h.writerMarking hq⟩
  | writerLooking => exact ⟨t, h.writerLooking hq⟩
  | upgrading => exact ⟨t, h.upgrading hn hq⟩
  | upgradeLooking => exact ⟨t, h.upgradeLooking hn hq⟩
  | downgrading => exact ⟨t, h.downgrading hn hq⟩

theorem Inv.call (h : s.Inv t) (hq : s.place i = .idle) : (s.call i).Inv t := by
  refine ⟨h.value, h.bit, h.one, h.alone, fun j => ?_⟩
  show Recorded (Function.update s.caller i (s.place i).status j)
    (Function.update s.result i none j) (s.place j)
  by_cases hji : j = i
  · rw [hji, Function.update_self, Function.update_self, hq]
    exact ⟨nofun, trivial⟩
  · rw [Function.update_of_ne hji, Function.update_of_ne hji]
    exact h.recorded j

theorem Inv.step (h : s.Inv t) (hn : Fintype.card ι < 2 ^ 29) (a : Action ι) (ha : s.Enabled a) :
    ∃ t', (s.perform a).Inv t' := by
  cases a with
  | tryAcquireAsReader i => exact ⟨t, h.tryAcquireAsReader hn ha⟩
  | acquireAsReader i =>
      refine ⟨t, (h.call ha).lookAsReader (q := .idle) ha rfl rfl fun hfalse => ?_⟩
      have hresult : (s.call i).result i = none := Function.update_self _ _ _
      rw [hresult] at hfalse
      cases hfalse
  | tryAcquireAsWriter i => exact ⟨t, h.tryAcquireAsWriter ha⟩
  | acquireAsWriter i => exact ⟨t, h.acquireAsWriter ha⟩
  | upgradeToWriter i => exact ⟨t, h.upgradeToWriter ha⟩
  | releaseAsReader i => exact ⟨t, h.releaseAsReader hn ha⟩
  | releaseAsWriter i => exact ⟨t, h.releaseAsWriter hn ha⟩
  | downgradeToReader i => exact ⟨t, h.downgradeToReader hn ha⟩
  | advance i => exact h.advance hn i

omit [DecidableEq ι] in
theorem inv_initial : (initial : RwSpinlock ι).Inv 0 := by
  have hzero : ∀ {w : SpinPlace → ℕ}, w .idle = 0 →
      Threads.total w (initial : RwSpinlock ι).place = 0 := Threads.total_const _
  refine ⟨?_, Nat.zero_le _, ?_, ?_, fun _ => ⟨nofun, trivial⟩⟩
  · rw [hzero rfl, hzero rfl]
    rfl
  · rw [hzero rfl]
    exact Nat.zero_le _
  · intro i j hi
    cases hi

theorem Reachable.inv (hn : Fintype.card ι < 2 ^ 29) (h : Reachable s) : ∃ t, s.Inv t := by
  induction h with
  | start => exact ⟨0, inv_initial⟩
  | step a _ ha ih =>
      obtain ⟨t, h⟩ := ih
      exact h.step hn a ha

/-- Between the calls a thread is counted if it is a reader. -/
theorem counted_eq_reads (hp : p.status ≠ none) : p.counted = p.reads := by
  cases p with
  | idle | reader | writer => rfl
  | _ => exact (hp rfl).elim

theorem Inv.toSound (h : s.Inv t) (hn : Fintype.card ι < 2 ^ 29) : s.Sound := by
  refine ⟨?_, fun i j => h.writing_unique, ?_, fun i => (h.recorded i).1, ?_⟩
  · intro i j hi hj
    cases hj with
    | inl hj => exact h.writing_unique (writing_of_holds hi) (writing_of_holds hj)
    | inr hj =>
        cases hp : s.place j with
        | reader => exact (h.alone i j hi hp).elim
        | upgrading => exact h.writing_unique (writing_of_holds hi) (by rw [hp]; rfl)
        | _ =>
            rw [hp] at hj
            cases hj
  · rw [h.and_write]
    constructor
    · intro hpos
      obtain ⟨i, hi⟩ := Threads.exists_of_total_pos
        (show 0 < Threads.total SpinPlace.writing s.place by omega)
      have hle := Threads.le_total SpinPlace.writing s.place i
      have hone := h.one
      exact ⟨i, by omega⟩
    · rintro ⟨i, hi⟩
      have hle := Threads.le_total SpinPlace.writing s.place i
      omega
  · intro hquiet
    unfold getReaderCount
    rw [h.and_readMask hn, Nat.shiftRight_eq_div_pow, Nat.mul_comm,
      Nat.mul_div_cancel _ (by decide)]
    exact Threads.total_congr fun i => counted_eq_reads (hquiet i)

theorem Reachable.sound (hn : Fintype.card ι < 2 ^ 29) (h : Reachable s) : s.Sound := by
  obtain ⟨t, h⟩ := h.inv hn
  exact h.toSound hn

/-- A reader upgrades while another thread tries to become one and steps back. -/
theorem Reachable.sound_upgrade : ∃ s : RwSpinlock (Fin 2), s.place 0 = .writer ∧
    s.result 1 = some false ∧ s.Sound := by
  have hn : Fintype.card (Fin 2) < 2 ^ 29 := by
    rw [Fintype.card_fin]
    norm_num
  have h : Reachable (initial : RwSpinlock (Fin 2)) := .start
  have h := h.step (.tryAcquireAsReader 0) rfl
  have h := h.step (.upgradeToWriter 0) rfl
  have h := h.step (.tryAcquireAsReader 1) rfl
  have h := h.step (.advance 0) trivial
  have h := h.step (.advance 1) trivial
  have h := h.step (.advance 0) trivial
  exact ⟨_, rfl, rfl, Reachable.sound hn h⟩

end RwSpinlock

end Beelzebub.Sync
