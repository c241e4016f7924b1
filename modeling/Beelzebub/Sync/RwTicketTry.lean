import Beelzebub.Sync.RwTicketLock
import Mathlib.Algebra.BigOperators.Group.Finset.Piecewise
import Mathlib.Data.Finset.Card
import Mathlib.Order.Interval.Finset.Nat

/-!
# Trying to take the ticket lock

`TryAcquireAsReader` and `TryAcquireAsWriter` put together the word that they expect and the one
that they want, and exchange them.  The sums carry from the tickets into the padding, and a
sixteen-bit field that is shifted is an `int` before it is a `uint64_t`.

The attempt is made while no other thread has a step to take.
-/

namespace Beelzebub.Sync

/-! ## The code -/

/-- `Whole`, where the padding is zero. -/
def RwTicket.whole (v : RwTicket) : ℕ :=
  (v.head <<< 32) + (v.readersTail <<< 16) + v.writersTail

/-- `x << n` for a `uint16_t`, as a `uint64_t`: the shift is one of an `int`. -/
def promotedShift (x n : ℕ) : ℕ := (Int.bmod ((x <<< n : ℕ) : ℤ) (2 ^ 32) % 2 ^ 64).toNat

/-- `__atomic_compare_exchange_n` on `Whole`, in the weak form that does not fail for no reason:
whether it succeeds, and what is in `Whole` then. -/
def exchangeWhole (cmp new : ℕ) (v : RwTicket) : Bool × ℕ :=
  if v.whole = cmp % 2 ^ 64 then (true, new % 2 ^ 64) else (false, v.whole)

def tryAcquireAsReader (v : RwTicket) : Bool × ℕ :=
  let me := v.head
  let write := v.writersTail
  let cmpnew := ((me + 1) <<< 32) + ((me + 1) <<< 16) + write
  let cmp := (me <<< 32) + (me <<< 16) + write
  exchangeWhole cmp cmpnew v

def tryAcquireAsWriter (v : RwTicket) : Bool × ℕ :=
  let me := v.head
  let read := promotedShift v.readersTail 16
  let cmpnew := ((me + 1) <<< 32) + read + me
  let cmp := (me <<< 32) + read + me
  exchangeWhole cmp cmpnew v

/-! ## What is asked -/

/-- The thread holds the lock as the writer or waits for it. -/
def Place.AsWriter : Place → Prop
  | .writerWaiting _ => True
  | p => p.HoldsAsWriter

namespace RwTicketLock

variable {ι : Type} [DecidableEq ι]

/-- No thread has a step to take but to wait on. -/
def Settled (s : RwTicketLock ι) : Prop := ∀ i, s.advance i = s

/-- `AcquireAsReader` without a disturbance: the fetch-add, the loop, and the increment, which is
a load and a store. -/
def acquiredAsReader (i : ι) (s : RwTicketLock ι) : RwTicketLock ι :=
  (((s.acquireAsReader i).advance i).advance i).advance i

/-- `AcquireAsWriter` without a disturbance: the fetch-add and the loop. -/
def acquiredAsWriter (i : ι) (s : RwTicketLock ι) : RwTicketLock ι :=
  (s.acquireAsWriter i).advance i

/-- The attempt of a thread as a reader succeeds exactly if there is no writer, with the value
that an acquisition would leave, and leaves the value as it is otherwise. -/
structure TriesAsReader (s : RwTicketLock ι) (i : ι) : Prop where
  succeeds : (tryAcquireAsReader s.value).1 = true ↔ ∀ j, ¬ (s.place j).AsWriter
  taken : (tryAcquireAsReader s.value).1 = true → (s.acquiredAsReader i).place i = .reader ∧
    (tryAcquireAsReader s.value).2 = (s.acquiredAsReader i).value.whole
  failed : (tryAcquireAsReader s.value).1 = false →
    (tryAcquireAsReader s.value).2 = s.value.whole

/-- The attempt of a thread as the writer succeeds exactly if everybody is idle. -/
structure TriesAsWriter (s : RwTicketLock ι) (i : ι) : Prop where
  succeeds : (tryAcquireAsWriter s.value).1 = true ↔ ∀ j, s.place j = .idle
  taken : (tryAcquireAsWriter s.value).1 = true → (s.acquiredAsWriter i).place i = .writer ∧
    (tryAcquireAsWriter s.value).2 = (s.acquiredAsWriter i).value.whole
  failed : (tryAcquireAsWriter s.value).1 = false →
    (tryAcquireAsWriter s.value).2 = s.value.whole

/-! ## Words -/

end RwTicketLock

/-- The fields have sixteen bits. -/
structure RwTicket.Small (v : RwTicket) : Prop where
  head : v.head < 2 ^ 16
  readersTail : v.readersTail < 2 ^ 16
  writersTail : v.writersTail < 2 ^ 16

variable {v : RwTicket}

theorem whole_eq (v : RwTicket) :
    v.whole = v.head * 2 ^ 32 + v.readersTail * 2 ^ 16 + v.writersTail := by
  unfold RwTicket.whole
  rw [Nat.shiftLeft_eq, Nat.shiftLeft_eq]

/-- Half of the tickets have the sign of an `int` set when they are shifted. -/
theorem promotedShift_eq {x : ℕ} (hx : x < 2 ^ 16) :
    promotedShift x 16 = if x < 2 ^ 15 then x * 2 ^ 16 else x * 2 ^ 16 + (2 ^ 64 - 2 ^ 32) := by
  unfold promotedShift
  rw [Nat.shiftLeft_eq, Int.bmod_def]
  split
  next h =>
    rw [if_pos (by omega)]
    omega
  next h =>
    rw [if_neg (by omega)]
    omega

theorem exchangeWhole_failed {cmp new : ℕ} (h : (exchangeWhole cmp new v).1 = false) :
    (exchangeWhole cmp new v).2 = v.whole := by
  unfold exchangeWhole at h ⊢
  split at h
  · cases h
  next hne => rw [if_neg hne]

theorem exchangeWhole_fst (cmp new : ℕ) (v : RwTicket) :
    (exchangeWhole cmp new v).1 = true ↔ v.whole = cmp % 2 ^ 64 := by
  unfold exchangeWhole
  split
  next h => exact iff_of_true rfl h
  next h => exact iff_of_false nofun h

theorem exchangeWhole_snd {cmp new : ℕ} (h : (exchangeWhole cmp new v).1 = true) :
    (exchangeWhole cmp new v).2 = new % 2 ^ 64 := by
  unfold exchangeWhole at h ⊢
  split at h
  next heq => rw [if_pos heq]
  · cases h

theorem tryAcquireAsReader_fst (h : v.Small) :
    (tryAcquireAsReader v).1 = true ↔ v.readersTail = v.head := by
  obtain ⟨hhead, hreaders, hwriters⟩ := h
  unfold tryAcquireAsReader
  rw [exchangeWhole_fst, whole_eq, Nat.shiftLeft_eq, Nat.shiftLeft_eq]
  omega

/-- With the last ticket the sums carry. -/
theorem tryAcquireAsReader_snd (h : v.Small) (hfree : v.readersTail = v.head) :
    (tryAcquireAsReader v).2 =
        RwTicket.whole ⟨v.writersTail, next16 v.readersTail, next16 v.head⟩ ↔
      v.head ≠ 2 ^ 16 - 1 := by
  have hfst := (tryAcquireAsReader_fst h).mpr hfree
  obtain ⟨hhead, hreaders, hwriters⟩ := h
  unfold tryAcquireAsReader at hfst ⊢
  rw [exchangeWhole_snd hfst, whole_eq, Nat.shiftLeft_eq, Nat.shiftLeft_eq, hfree]
  dsimp only
  unfold next16
  rcases Nat.lt_or_ge v.head (2 ^ 16 - 1) with hlow | hlast
  · rw [Nat.mod_eq_of_lt (a := v.head + 1) (by omega), Nat.mod_eq_of_lt (by omega)]
    exact iff_of_true rfl (Nat.ne_of_lt hlow)
  · have heq : v.head = 2 ^ 16 - 1 := by omega
    rw [heq]
    omega

/-- From the ticket `2 ^ 15` on the expected word is never there. -/
theorem tryAcquireAsWriter_fst (h : v.Small) :
    (tryAcquireAsWriter v).1 = true ↔ v.writersTail = v.head ∧ v.readersTail < 2 ^ 15 := by
  obtain ⟨hhead, hreaders, hwriters⟩ := h
  unfold tryAcquireAsWriter
  rw [exchangeWhole_fst, whole_eq, promotedShift_eq hreaders, Nat.shiftLeft_eq]
  split
  next => omega
  next hsign =>
    refine iff_of_false ?_ fun h => hsign h.2
    cases hme : v.head with
    | zero =>
        rw [Nat.mod_eq_of_lt (by omega)]
        omega
    | succ me =>
        -- the sign bits reach the ticket, which is one too small
        have hsum : (me + 1) * 2 ^ 32 + (v.readersTail * 2 ^ 16 + (2 ^ 64 - 2 ^ 32)) + (me + 1) =
            me * 2 ^ 32 + v.readersTail * 2 ^ 16 + (me + 1) + 2 ^ 64 := by omega
        rw [hsum, Nat.add_mod_right, Nat.mod_eq_of_lt (by omega)]
        omega

theorem tryAcquireAsWriter_snd (h : v.Small) (hfree : v.writersTail = v.head)
    (htail : v.readersTail = v.head) (hlow : v.head < 2 ^ 15) :
    (tryAcquireAsWriter v).2 = RwTicket.whole ⟨v.writersTail, v.readersTail, next16 v.head⟩ := by
  have hfst := (tryAcquireAsWriter_fst h).mpr ⟨hfree, htail ▸ hlow⟩
  unfold tryAcquireAsWriter at hfst ⊢
  rw [exchangeWhole_snd hfst, whole_eq, promotedShift_eq h.readersTail, Nat.shiftLeft_eq, htail,
    if_pos hlow, hfree]
  dsimp only
  unfold next16
  rw [Nat.mod_eq_of_lt (a := v.head + 1) (by omega), Nat.mod_eq_of_lt (by omega)]

/-! ## Who is there -/

namespace RwTicketLock

variable {ι : Type} [DecidableEq ι] {s : RwTicketLock ι} {i : ι} {W R : ℕ}

theorem acquiredAsReader_spec (hfree : s.value.readersTail = s.value.head) :
    (s.acquiredAsReader i).place i = .reader ∧ (s.acquiredAsReader i).value =
      ⟨s.value.writersTail, next16 s.value.readersTail, next16 s.value.head⟩ := by
  have hsub : sub16 s.value.head s.value.readersTail = 0 := by
    rw [hfree]
    unfold sub16
    omega
  have hloop : (s.acquireAsReader i).advance i = (s.acquireAsReader i).serve i .readerEntering := by
    unfold RwTicketLock.advance
    rw [show (s.acquireAsReader i).place i = .readerWaiting s.value.head from
      Function.update_self ..]
    exact if_pos hsub
  have hload : ((s.acquireAsReader i).serve i .readerEntering).advance i =
      ((s.acquireAsReader i).serve i .readerEntering).move i
        (.readerStoring s.value.readersTail) := by
    unfold RwTicketLock.advance
    rw [show ((s.acquireAsReader i).serve i .readerEntering).place i = .readerEntering from
      Function.update_self ..]
    rfl
  unfold acquiredAsReader
  rw [hloop, hload]
  unfold RwTicketLock.advance
  rw [show (((s.acquireAsReader i).serve i .readerEntering).move i
    (.readerStoring s.value.readersTail)).place i = .readerStoring s.value.readersTail from
      Function.update_self ..]
  exact ⟨Function.update_self .., rfl⟩

theorem acquiredAsWriter_spec (hfree : s.value.writersTail = s.value.head) :
    (s.acquiredAsWriter i).place i = .writer ∧ (s.acquiredAsWriter i).value =
      ⟨s.value.writersTail, s.value.readersTail, next16 s.value.head⟩ := by
  have hsub : sub16 s.value.head s.value.writersTail = 0 := by
    rw [hfree]
    unfold sub16
    omega
  have hloop : (s.acquireAsWriter i).advance i = (s.acquireAsWriter i).serve i .writer := by
    unfold RwTicketLock.advance
    rw [show (s.acquireAsWriter i).place i = .writerWaiting s.value.head from
      Function.update_self ..]
    exact if_pos hsub
  unfold acquiredAsWriter
  rw [hloop]
  exact ⟨Function.update_self .., rfl⟩

variable [Fintype ι]

omit [DecidableEq ι] in
theorem Inv.small (h : s.Inv W R) : s.value.Small where
  head := by
    rw [h.head]
    exact Nat.mod_lt _ (by decide)
  readersTail := by
    rw [h.readersTail]
    exact Nat.mod_lt _ (by decide)
  writersTail := by
    rw [h.writersTail]
    exact Nat.mod_lt _ (by decide)

omit [DecidableEq ι] in
/-- The next ticket to be served is out if any is. -/
theorem Inv.next_waiting (h : s.Inv W R) (hpos : s.served.length < s.taken) :
    ∃ j, (s.place j).waiting = 1 ∧ s.ticket j = s.served.length := by
  classical
  have hone : ∀ j, (s.place j).waiting ≤ 1 := fun j => by
    have := (s.place j).counted_le
    omega
  have hcard : (Finset.univ.filter fun j => (s.place j).waiting = 1).card =
      (Finset.Ico s.served.length s.taken).card := by
    have hwaiting := h.waiting
    have htotal : Threads.total Place.waiting s.place =
        (Finset.univ.filter fun j => (s.place j).waiting = 1).card := by
      rw [Finset.card_filter]
      refine Finset.sum_congr rfl fun j _ => ?_
      have hj := hone j
      split
      · assumption
      · omega
    rw [Nat.card_Ico, ← htotal]
    omega
  -- the tickets that are waited with are all that are out
  have himage := Finset.surj_on_of_inj_on_of_card_le
    (s := Finset.univ.filter fun j => (s.place j).waiting = 1)
    (t := Finset.Ico s.served.length s.taken) (fun j _ => s.ticket j) ?_ ?_ hcard.ge
    s.served.length (Finset.mem_Ico.mpr ⟨Nat.le_refl _, hpos⟩)
  · obtain ⟨j, hj, hticket⟩ := himage
    exact ⟨j, (Finset.mem_filter.mp hj).2, hticket.symm⟩
  · intro j hj
    exact Finset.mem_Ico.mpr ((h.fine j).ticket (Finset.mem_filter.mp hj).2)
  · intro j k hj hk heq
    by_contra hjk
    exact h.distinct j k hjk (Finset.mem_filter.mp hj).2 (Finset.mem_filter.mp hk).2 heq

omit [DecidableEq ι] in
/-- All three counters agree with what is left of them. -/
theorem Inv.eq_head (h : s.Inv W R) (hn : Fintype.card ι < 2 ^ 16) :
    (s.value.readersTail = s.value.head ↔ s.taken = R) ∧
      (s.value.writersTail = s.value.head ↔ s.taken = W) := by
  have htaken := h.taken_le
  have hreaders := h.readers
  have hserving := h.serving
  have hwaiting := h.waiting
  rw [h.head, h.readersTail, h.writersTail]
  constructor
  · omega
  · omega

omit [DecidableEq ι] in
theorem Inv.taken_eq_readers (h : s.Inv W R) :
    s.taken = R ↔ ∀ j, (s.place j).serving = 0 ∧ (s.place j).waiting = 0 := by
  have hserving := h.serving
  have hwaiting := h.waiting
  rw [forall_and, ← Threads.total_eq_zero, ← Threads.total_eq_zero]
  omega

omit [DecidableEq ι] in
theorem Inv.taken_eq_writers (h : s.Inv W R) : s.taken = W ↔ ∀ j, s.place j = .idle := by
  have hreaders := h.readers
  have hserving := h.serving
  have hwaiting := h.waiting
  have hzero : s.taken = W ↔ (∀ j, (s.place j).reading = 0) ∧ (∀ j, (s.place j).serving = 0) ∧
      ∀ j, (s.place j).waiting = 0 := by
    rw [← Threads.total_eq_zero, ← Threads.total_eq_zero, ← Threads.total_eq_zero]
    omega
  rw [hzero]
  constructor
  · rintro ⟨hreading, hserving, hwaiting⟩ j
    have hj := hreading j
    have hj' := hserving j
    have hj'' := hwaiting j
    cases hp : s.place j with
    | idle => rfl
    | reader | upgrading | swapping =>
        rw [hp] at hj
        cases hj
    | readerEntering | readerStoring | writer | releasing | downgrading =>
        rw [hp] at hj'
        cases hj'
    | readerWaiting me | writerWaiting me =>
        rw [hp] at hj''
        cases hj''
  · intro hidle
    refine ⟨fun j => ?_, fun j => ?_, fun j => ?_⟩
    · rw [hidle j]
      rfl
    · rw [hidle j]
      rfl
    · rw [hidle j]
      rfl

omit [Fintype ι] in
/-- Whoever is served in a settled state is the writer. -/
theorem Settled.serving (h : s.Settled) (hi : (s.place i).serving = 1) : s.place i = .writer := by
  have hmoves : ∀ {q p : Place} {t : RwTicketLock ι}, s.place i = q → s.advance i = t →
      t.place i = p → q = p := by
    intro q p t hq ht hp
    rw [← hq, ← hp, ← ht, h i]
  cases hp : s.place i with
  | writer => rfl
  | readerEntering =>
      have hstep : s.advance i = s.move i (.readerStoring s.value.readersTail) := by
        unfold RwTicketLock.advance
        rw [hp]
      cases hmoves hp hstep (Function.update_self ..)
  | readerStoring tail =>
      have hstep : s.advance i = { s.move i .reader with
          value := { s.value with readersTail := next16 tail } } := by
        unfold RwTicketLock.advance
        rw [hp]
      cases hmoves hp hstep (Function.update_self ..)
  | releasing temp =>
      have hstep : s.advance i = { s.move i .idle with
          value := { s.value with
            writersTail := next16 temp.writersTail, readersTail := next16 temp.readersTail } } := by
        unfold RwTicketLock.advance
        rw [hp]
      cases hmoves hp hstep (Function.update_self ..)
  | downgrading tail =>
      have hstep : s.advance i = { s.move i .reader with
          value := { s.value with readersTail := next16 tail } } := by
        unfold RwTicketLock.advance
        rw [hp]
      cases hmoves hp hstep (Function.update_self ..)
  | idle | readerWaiting | reader | writerWaiting | upgrading | swapping =>
      rw [hp] at hi
      cases hi

omit [Fintype ι] in
/-- In a settled state no reader waits with the ticket that the readers' tail has come to. -/
theorem Settled.readerWaiting (h : s.Settled) {me : ℕ} (hi : s.place i = .readerWaiting me) :
    sub16 me s.value.readersTail ≠ 0 := by
  intro hsub
  have hstep : s.advance i = s.serve i .readerEntering := by
    unfold RwTicketLock.advance
    rw [hi]
    exact if_pos hsub
  have hplace : (s.serve i .readerEntering).place i = s.place i := by
    rw [← hstep, h i]
  rw [hi, show (s.serve i .readerEntering).place i = .readerEntering from
    Function.update_self ..] at hplace
  cases hplace

/-- In a settled state all tickets are past the readers' tail exactly if there is no writer. -/
theorem Inv.taken_eq_iff (h : s.Inv W R) (hsettled : s.Settled) :
    s.taken = R ↔ ∀ j, ¬ (s.place j).AsWriter := by
  rw [h.taken_eq_readers]
  constructor
  · intro hnone j hwriter
    obtain ⟨hserving, hwaiting⟩ := hnone j
    cases hp : s.place j with
    | writerWaiting me =>
        rw [hp] at hwaiting
        cases hwaiting
    | writer | releasing | downgrading =>
        rw [hp] at hserving
        cases hserving
    | idle | readerWaiting | readerEntering | readerStoring | reader | upgrading | swapping =>
        rw [hp] at hwriter
        exact hwriter.elim
  · intro hnone
    have hserving : ∀ j, (s.place j).serving = 0 := by
      intro j
      have hle := (s.place j).counted_le
      by_contra hj
      refine hnone j ?_
      rw [hsettled.serving (i := j) (by omega)]
      trivial
    have hlength : s.served.length = R := by
      have hsum := h.serving
      rw [Threads.total_eq_zero.mpr hserving] at hsum
      exact hsum
    have hwaiting : s.taken = s.served.length := by
      by_contra hne
      have hle := h.waiting
      obtain ⟨j, hj, hticket⟩ := h.next_waiting (by omega)
      have hfine := h.fine j
      cases hp : s.place j with
      | readerWaiting me =>
          rw [hp] at hfine
          refine hsettled.readerWaiting hp ?_
          rw [hfine.1, hticket, hlength, h.readersTail]
          unfold sub16
          omega
      | writerWaiting me =>
          refine hnone j ?_
          rw [hp]
          trivial
      | _ =>
          rw [hp] at hj
          cases hj
    intro j
    refine ⟨hserving j, ?_⟩
    have hsum := h.waiting
    exact Threads.total_eq_zero.mp (by omega) j

/-! ## The attempts -/

theorem Inv.triesAsReader_iff (h : s.Inv W R) (hn : Fintype.card ι < 2 ^ 16)
    (hsettled : s.Settled) (i : ι) : s.TriesAsReader i ↔
      (s.value.head = 2 ^ 16 - 1 → ∃ j, (s.place j).AsWriter) := by
  have hfree : (tryAcquireAsReader s.value).1 = true ↔ ∀ j, ¬ (s.place j).AsWriter :=
    (tryAcquireAsReader_fst h.small).trans ((h.eq_head hn).1.trans (h.taken_eq_iff hsettled))
  constructor
  · intro htries hlast
    by_contra hnone
    have hsuccess := hfree.mpr (not_exists.mp hnone)
    have htail := (tryAcquireAsReader_fst h.small).mp hsuccess
    have hvalue := (htries.taken hsuccess).2
    rw [(acquiredAsReader_spec htail).2] at hvalue
    exact (tryAcquireAsReader_snd h.small htail).mp hvalue hlast
  · intro hcase
    refine ⟨hfree, fun hsuccess => ?_, exchangeWhole_failed⟩
    have htail := (tryAcquireAsReader_fst h.small).mp hsuccess
    obtain ⟨hplace, hvalue⟩ := acquiredAsReader_spec (i := i) htail
    refine ⟨hplace, ?_⟩
    rw [hvalue]
    refine (tryAcquireAsReader_snd h.small htail).mpr fun hlast => ?_
    obtain ⟨j, hj⟩ := hcase hlast
    exact hfree.mp hsuccess j hj

omit [DecidableEq ι] in
/-- When everybody is idle the readers' tail has come to the head as well. -/
theorem Inv.tails_eq (h : s.Inv W R) (hidle : ∀ j, s.place j = .idle)
    (hn : Fintype.card ι < 2 ^ 16) :
    s.value.readersTail = s.value.head ∧ s.value.writersTail = s.value.head := by
  refine ⟨(h.eq_head hn).1.mpr (h.taken_eq_readers.mpr fun j => ?_),
    (h.eq_head hn).2.mpr (h.taken_eq_writers.mpr hidle)⟩
  rw [hidle j]
  exact ⟨rfl, rfl⟩

theorem Inv.triesAsWriter_iff (h : s.Inv W R) (hn : Fintype.card ι < 2 ^ 16) (i : ι) :
    s.TriesAsWriter i ↔ (2 ^ 15 ≤ s.value.head → ∃ j, s.place j ≠ .idle) := by
  have hsuccess : (tryAcquireAsWriter s.value).1 = true ↔
      (∀ j, s.place j = .idle) ∧ s.value.readersTail < 2 ^ 15 := by
    rw [tryAcquireAsWriter_fst h.small, (h.eq_head hn).2, h.taken_eq_writers]
  constructor
  · intro htries hhigh
    by_contra hnone
    have hidle : ∀ j, s.place j = .idle := fun j => not_not.mp (not_exists.mp hnone j)
    have hlow := (hsuccess.mp (htries.succeeds.mpr hidle)).2
    rw [(h.tails_eq hidle hn).1] at hlow
    exact Nat.not_lt.mpr hhigh hlow
  · intro hcase
    refine ⟨?_, fun htrue => ?_, exchangeWhole_failed⟩
    · rw [hsuccess, and_iff_left_iff_imp]
      intro hidle
      rw [(h.tails_eq hidle hn).1]
      by_contra hhigh
      obtain ⟨j, hj⟩ := hcase (Nat.not_lt.mp hhigh)
      exact hj (hidle j)
    · obtain ⟨hidle, hlow⟩ := hsuccess.mp htrue
      obtain ⟨hreaders, hwriters⟩ := h.tails_eq hidle hn
      obtain ⟨hplace, hvalue⟩ := acquiredAsWriter_spec (i := i) hwriters
      refine ⟨hplace, ?_⟩
      rw [hvalue]
      exact tryAcquireAsWriter_snd h.small hwriters hreaders (hreaders ▸ hlow)

/-- In a settled state an attempt as a reader does what it should except with the last ticket on a
lock without a writer, and an attempt as the writer except with a ticket in the upper half on a
lock that is free. -/
theorem Reachable.tries_iff (hn : Fintype.card ι < 2 ^ 16) (h : Reachable Fit s)
    (hsettled : s.Settled) (i : ι) :
    (s.TriesAsReader i ↔ (s.value.head = 2 ^ 16 - 1 → ∃ j, (s.place j).AsWriter)) ∧
      (s.TriesAsWriter i ↔ (2 ^ 15 ≤ s.value.head → ∃ j, s.place j ≠ .idle)) := by
  obtain ⟨W, R, hinv⟩ := h.inv hn
  exact ⟨hinv.triesAsReader_iff hn hsettled i, hinv.triesAsWriter_iff hn i⟩

theorem one_thread : Fintype.card Unit < 2 ^ 16 := by decide

omit [Fintype ι] in
theorem settled_of_idle (h : ∀ j, s.place j = .idle) : s.Settled := by
  intro j
  unfold RwTicketLock.advance
  rw [h j]

/-- A lock that was never taken. -/
theorem Reachable.tries_iff_initial :
    (initial : RwTicketLock Unit).TriesAsReader () ∧
      (initial : RwTicketLock Unit).TriesAsWriter () := by
  have hstart : Reachable Fit (initial : RwTicketLock Unit) := .start
  have htries := Reachable.tries_iff one_thread hstart (settled_of_idle fun _ => rfl) ()
  exact ⟨htries.1.mpr fun hlast => absurd hlast (by decide),
    htries.2.mpr fun hhigh => absurd hhigh (by decide)⟩

/-- One thread takes the lock as the writer and releases it, again and again. -/
theorem reachable_rounds (n : ℕ) : ∃ s : RwTicketLock Unit, Reachable Fit s ∧
    s.place () = .idle ∧ s.value = ⟨n % 2 ^ 16, n % 2 ^ 16, n % 2 ^ 16⟩ := by
  induction n with
  | zero => exact ⟨initial, .start, rfl, rfl⟩
  | succ n ih =>
      obtain ⟨s, hs, hidle, hvalue⟩ := ih
      have hfree : s.value.writersTail = s.value.head := by rw [hvalue]
      have htake := hs.step (.acquireAsWriter ()) hidle trivial
      have hwait : (s.acquireAsWriter ()).place () = .writerWaiting s.value.head := rfl
      have henter := htake.step (.advance ()) trivial fun weak swapped cur hswap => by
        change (s.acquireAsWriter ()).place () = _ at hswap
        rw [hwait] at hswap
        cases hswap
      obtain ⟨hwriter, hheld⟩ := acquiredAsWriter_spec (i := ()) hfree
      have hload := henter.step (.releaseAsWriter ()) hwriter trivial
      have hstoring : ((s.acquiredAsWriter ()).releaseAsWriter ()).place () =
          .releasing (s.acquiredAsWriter ()).value := rfl
      have hstore := hload.step (.advance ()) trivial fun weak swapped cur hswap => by
        change ((s.acquiredAsWriter ()).releaseAsWriter ()).place () = _ at hswap
        rw [hstoring] at hswap
        cases hswap
      have hdone : ((s.acquiredAsWriter ()).releaseAsWriter ()).advance () =
          { ((s.acquiredAsWriter ()).releaseAsWriter ()).move () .idle with
            value := { (s.acquiredAsWriter ()).value with
              writersTail := next16 (s.acquiredAsWriter ()).value.writersTail
              readersTail := next16 (s.acquiredAsWriter ()).value.readersTail } } := by
        unfold RwTicketLock.advance
        rw [hstoring]
        rfl
      refine ⟨_, hstore, ?_, ?_⟩
      · show (((s.acquiredAsWriter ()).releaseAsWriter ()).advance ()).place () = .idle
        rw [hdone]
        rfl
      · show (((s.acquiredAsWriter ()).releaseAsWriter ()).advance ()).value = _
        rw [hdone, hheld, hvalue]
        show RwTicket.mk (next16 (n % 2 ^ 16)) (next16 (n % 2 ^ 16)) (next16 (n % 2 ^ 16)) = _
        rw [next16_mod]

/-- After `2 ^ 15` rounds the lock is free, and an attempt as the writer fails. -/
theorem not_tries : ¬ ∀ s : RwTicketLock Unit, Reachable Fit s → s.Settled →
    s.TriesAsReader () ∧ s.TriesAsWriter () := by
  intro hall
  obtain ⟨s, hs, hidle, hvalue⟩ := reachable_rounds (2 ^ 15)
  obtain ⟨W, R, hinv⟩ := hs.inv one_thread
  have htries := (hall s hs (settled_of_idle fun _ => hidle)).2
  obtain ⟨j, hj⟩ := (hinv.triesAsWriter_iff one_thread ()).mp htries (by rw [hvalue]; decide)
  exact hj hidle

end RwTicketLock

end Beelzebub.Sync
