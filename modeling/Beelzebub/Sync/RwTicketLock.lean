import Beelzebub.Lib.Threads
import Mathlib.Data.List.Nodup
import Mathlib.Data.Nat.ModEq
import Mathlib.Logic.Function.Iterate
import Mathlib.Tactic.FinCases
import Mathlib.Tactic.NormNum

/-!
# The ticket lock for readers and writers

A thread takes a ticket from the head and waits until one of the tails comes to it: that of the
readers, which passes when a reader has entered, or that of the writers, which passes when a
holder has released the lock.  All three are counters of sixteen bits in one word.

A step is one access of the word.  `++` on a field is a load and a store of that field.
-/

namespace Beelzebub.Sync

/-! ## The code -/

/-- `rwticketlock_t`. -/
structure RwTicket where
  writersTail : ℕ
  readersTail : ℕ
  head : ℕ
  deriving DecidableEq

/-- `x + 1` in sixteen bits. -/
def next16 (x : ℕ) : ℕ := (x + 1) % 2 ^ 16

/-- `x - y` in sixteen bits. -/
def sub16 (x y : ℕ) : ℕ := (((x : ℤ) - y) % 2 ^ 16).toNat

/-- Where a thread is: in the loop of an acquisition, between the loop and the increment of the
readers' tail, inside that increment, in a release or a downgrade with what it has loaded, or
in an upgrade before the load or the exchange.  That an upgrade has changed the lock is only
for the record. -/
inductive Place where
  | idle
  | readerWaiting (me : ℕ)
  | readerEntering
  | readerStoring (tail : ℕ)
  | reader
  | writerWaiting (me : ℕ)
  | writer
  | releasing (temp : RwTicket)
  | downgrading (tail : ℕ)
  | upgrading (swapped : Bool)
  | swapping (weak swapped : Bool) (cur : RwTicket)

namespace Place

def waiting : Place → ℕ
  | .readerWaiting _ => 1
  | .writerWaiting _ => 1
  | _ => 0

/-- The ticket of the thread is served: it is on its way in as a reader, or it is the writer. -/
def serving : Place → ℕ
  | .readerEntering => 1
  | .readerStoring _ => 1
  | .writer => 1
  | .releasing _ => 1
  | .downgrading _ => 1
  | _ => 0

def reading : Place → ℕ
  | .reader => 1
  | .upgrading _ => 1
  | .swapping _ _ _ => 1
  | _ => 0

theorem counted_le (p : Place) : p.reading + p.serving + p.waiting ≤ 1 := by
  cases p <;> simp [reading, serving, waiting]

/-- Between the loop of `AcquireAsReader` and its return. -/
def Entering : Place → Prop
  | .readerEntering => True
  | .readerStoring _ => True
  | _ => False

/-- From the return of an acquisition as the writer or of an upgrade to the last access of the
release or downgrade. -/
def HoldsAsWriter : Place → Prop
  | .writer => True
  | .releasing _ => True
  | .downgrading _ => True
  | _ => False

def Holds (p : Place) : Prop := p.HoldsAsWriter ∨ p.reading = 1

def InUpgrade : Place → Prop
  | .upgrading _ => True
  | .swapping _ _ _ => True
  | _ => False

end Place

/-- The lock and its threads.  The fields after `place` are only for the record: the tickets
that were taken, without wrapping, those that were served, and for each thread what its last
upgrade returned and whether it changed the lock. -/
structure RwTicketLock (ι : Type) where
  value : RwTicket
  place : ι → Place
  ticket : ι → ℕ
  taken : ℕ
  served : List ℕ
  upgrade : ι → Option (Bool × Bool)

namespace RwTicketLock

variable {ι : Type}

def initial : RwTicketLock ι where
  value := ⟨0, 0, 0⟩
  place _ := .idle
  ticket _ := 0
  taken := 0
  served := []
  upgrade _ := none

variable [DecidableEq ι]

def move (i : ι) (p : Place) (s : RwTicketLock ι) : RwTicketLock ι :=
  { s with place := Function.update s.place i p }

/-- The fetch-add at the start of an acquisition. -/
def take (i : ι) (p : ℕ → Place) (s : RwTicketLock ι) : RwTicketLock ι :=
  { s.move i (p s.value.head) with
    value := { s.value with head := next16 s.value.head }
    ticket := Function.update s.ticket i s.taken
    taken := s.taken + 1 }

/-- The loop of an acquisition is left. -/
def serve (i : ι) (p : Place) (s : RwTicketLock ι) : RwTicketLock ι :=
  { s.move i p with served := s.served ++ [s.ticket i] }

def acquireAsReader (i : ι) (s : RwTicketLock ι) : RwTicketLock ι := s.take i .readerWaiting

def acquireAsWriter (i : ι) (s : RwTicketLock ι) : RwTicketLock ι := s.take i .writerWaiting

def releaseAsReader (i : ι) (s : RwTicketLock ι) : RwTicketLock ι :=
  { s.move i .idle with
    value := { s.value with writersTail := next16 s.value.writersTail } }

/-- The load of `ReleaseAsWriter`. -/
def releaseAsWriter (i : ι) (s : RwTicketLock ι) : RwTicketLock ι := s.move i (.releasing s.value)

/-- The load of `DowngradeToReader`. -/
def downgradeToReader (i : ι) (s : RwTicketLock ι) : RwTicketLock ι :=
  s.move i (.downgrading s.value.readersTail)

/-- `UpgradeToWriter` returns. -/
def upgraded (i : ι) (result swapped : Bool) (s : RwTicketLock ι) : RwTicketLock ι :=
  { s.move i (if result then .writer else .reader) with
    upgrade := Function.update s.upgrade i (some (result, swapped)) }

/-- The load of `UpgradeToWriter` and the test.  The difference of the tails is that of two
`int`s. -/
def loadForUpgrade (i : ι) (weak swapped : Bool) (s : RwTicketLock ι) : RwTicketLock ι :=
  if (s.value.readersTail : ℤ) - s.value.writersTail ≠ 1 then s.upgraded i false swapped
  else s.move i (.swapping weak swapped s.value)

def upgradeToWriter (i : ι) (weak : Bool) (s : RwTicketLock ι) : RwTicketLock ι :=
  s.loadForUpgrade i weak false

/-- The exchange of `UpgradeToWriter` does not take place. -/
def notSwapped (i : ι) (weak swapped : Bool) (cur : RwTicket) (s : RwTicketLock ι) :
    RwTicketLock ι :=
  if weak = true ∨ s.value.head = cur.head then s.upgraded i false swapped
  else s.move i (.upgrading swapped)

/-- `des`. -/
def pushBack (cur : RwTicket) (s : RwTicketLock ι) : RwTicketLock ι :=
  { s with value := { cur with readersTail := sub16 cur.readersTail 1 } }

/-- The exchange of `UpgradeToWriter`.  After it the strong form goes on with the loop. -/
def swap (i : ι) (weak swapped : Bool) (cur : RwTicket) (s : RwTicketLock ι) : RwTicketLock ι :=
  if s.value = cur then
    if weak then (s.pushBack cur).upgraded i true true
    else (s.pushBack cur).move i (.upgrading true)
  else s.notSwapped i weak swapped cur

/-- The next access of a thread. -/
def advance (i : ι) (s : RwTicketLock ι) : RwTicketLock ι :=
  match s.place i with
  | .idle => s
  | .readerWaiting me =>
      if sub16 me s.value.readersTail = 0 then s.serve i .readerEntering else s
  | .readerEntering => s.move i (.readerStoring s.value.readersTail)
  | .readerStoring tail =>
      { s.move i .reader with value := { s.value with readersTail := next16 tail } }
  | .reader => s
  | .writerWaiting me => if sub16 me s.value.writersTail = 0 then s.serve i .writer else s
  | .writer => s
  | .releasing temp =>
      { s.move i .idle with
        value := { s.value with
          writersTail := next16 temp.writersTail, readersTail := next16 temp.readersTail } }
  | .downgrading tail =>
      { s.move i .reader with value := { s.value with readersTail := next16 tail } }
  | .upgrading swapped => s.loadForUpgrade i false swapped
  | .swapping weak swapped cur => s.swap i weak swapped cur

/-- The exchange of the weak form may fail for no reason. -/
def fail (i : ι) (s : RwTicketLock ι) : RwTicketLock ι :=
  match s.place i with
  | .swapping true swapped cur => s.notSwapped i true swapped cur
  | _ => s

/-- A call with its first access, the next access of a thread, or a failure for no reason. -/
inductive Action (ι : Type) where
  | acquireAsReader (i : ι)
  | acquireAsWriter (i : ι)
  | releaseAsReader (i : ι)
  | releaseAsWriter (i : ι)
  | downgradeToReader (i : ι)
  | upgradeToWriter (i : ι) (weak : Bool)
  | advance (i : ι)
  | fail (i : ι)

def perform (s : RwTicketLock ι) : Action ι → RwTicketLock ι
  | .acquireAsReader i => s.acquireAsReader i
  | .acquireAsWriter i => s.acquireAsWriter i
  | .releaseAsReader i => s.releaseAsReader i
  | .releaseAsWriter i => s.releaseAsWriter i
  | .downgradeToReader i => s.downgradeToReader i
  | .upgradeToWriter i weak => s.upgradeToWriter i weak
  | .advance i => s.advance i
  | .fail i => s.fail i

omit [DecidableEq ι] in
/-- The operations are used in matching pairs. -/
def Enabled (s : RwTicketLock ι) : Action ι → Prop
  | .acquireAsReader i => s.place i = .idle
  | .acquireAsWriter i => s.place i = .idle
  | .releaseAsReader i => s.place i = .reader
  | .releaseAsWriter i => s.place i = .writer
  | .downgradeToReader i => s.place i = .writer
  | .upgradeToWriter i _ => s.place i = .reader
  | .advance _ => True
  | .fail _ => True

inductive Reachable (kind : RwTicketLock ι → Action ι → Prop) : RwTicketLock ι → Prop
  | start : Reachable kind initial
  | step {s : RwTicketLock ι} (a : Action ι) : Reachable kind s → s.Enabled a → kind s a →
      Reachable kind (s.perform a)

/-- All operations but the upgrade. -/
def plain (_ : RwTicketLock ι) : Action ι → Prop
  | .upgradeToWriter _ _ => False
  | _ => True

/-! ## What is asked -/

/-- With the writer nobody else holds the lock. -/
def Exclusive (s : RwTicketLock ι) : Prop :=
  ∀ i j, (s.place i).HoldsAsWriter → (s.place j).Holds → i = j

/-- Tickets are served in the order in which they are taken. -/
def InOrder (s : RwTicketLock ι) : Prop := s.served = List.range s.served.length

/-- What a thread has loaded and is about to write back, each field plus one, is still there. -/
def Intact (value : RwTicket) : Place → Prop
  | .readerStoring tail => value.readersTail = tail
  | .releasing temp =>
      value.writersTail = temp.writersTail ∧ value.readersTail = temp.readersTail
  | .downgrading tail => value.readersTail = tail
  | _ => True

/-- An upgrade that returns false has not changed the lock. -/
def Harmless (s : RwTicketLock ι) : Prop :=
  ∀ i swapped, s.upgrade i = some (false, swapped) → swapped = false

/-- The thread holds the lock as a reader and no other thread is active. -/
def Alone (s : RwTicketLock ι) (i : ι) : Prop :=
  s.place i = .reader ∧ ∀ j, j ≠ i → s.place j = .idle

/-- The upgrade returns true when no other thread takes a step. -/
def Upgrades (s : RwTicketLock ι) (i : ι) (weak : Bool) : Prop :=
  ∃ n, ((advance i)^[n] (s.upgradeToWriter i weak)).place i = .writer

/-! ## The condition -/

/-- The exchange of an upgrade succeeds only in its weak form and while no reader is between
its loop and its return. -/
def Fit (s : RwTicketLock ι) : Action ι → Prop
  | .advance i => ∀ weak swapped cur, s.place i = .swapping weak swapped cur → s.value = cur →
      weak = true ∧ ∀ j, ¬ (s.place j).Entering
  | _ => True

/-! ## The invariant -/

/-- Where a thread may be when so many tickets were served and taken, so many holders have
released the lock and so many tickets are past the readers' tail. -/
def Fine (served taken W R ticket : ℕ) : Place → Prop
  | .readerWaiting me => me = ticket % 2 ^ 16 ∧ served ≤ ticket ∧ ticket < taken
  | .writerWaiting me => me = ticket % 2 ^ 16 ∧ served ≤ ticket ∧ ticket < taken
  | .readerStoring tail => tail = R % 2 ^ 16
  | .writer => R = W
  | .releasing temp => R = W ∧ temp.writersTail = W % 2 ^ 16 ∧ temp.readersTail = R % 2 ^ 16
  | .downgrading tail => R = W ∧ tail = R % 2 ^ 16
  | .upgrading swapped => swapped = false
  | .swapping _ swapped cur => swapped = false ∧ (cur.readersTail : ℤ) - cur.writersTail = 1
  | _ => True

variable [Fintype ι]

structure Inv (s : RwTicketLock ι) (W R : ℕ) : Prop where
  head : s.value.head = s.taken % 2 ^ 16
  readersTail : s.value.readersTail = R % 2 ^ 16
  writersTail : s.value.writersTail = W % 2 ^ 16
  readers : R = W + Threads.total Place.reading s.place
  serving : s.served.length = R + Threads.total Place.serving s.place
  waiting : s.taken = s.served.length + Threads.total Place.waiting s.place
  one : Threads.total Place.serving s.place ≤ 1
  inOrder : s.InOrder
  fine : ∀ i, Fine s.served.length s.taken W R (s.ticket i) (s.place i)
  distinct : ∀ i j, i ≠ j → (s.place i).waiting = 1 → (s.place j).waiting = 1 →
    s.ticket i ≠ s.ticket j
  harmless : s.Harmless

variable {s : RwTicketLock ι} {W R : ℕ} {i j : ι} {p q : Place} {w : Place → ℕ}

/-! ### Sums over the threads -/

omit [DecidableEq ι] in
/-- Each active thread counts once. -/
theorem total_le : Threads.total Place.reading s.place + Threads.total Place.serving s.place +
    Threads.total Place.waiting s.place ≤ Fintype.card ι := by
  rw [← Threads.total_add, ← Threads.total_add]
  exact Threads.total_le_card Place.counted_le

omit [DecidableEq ι] in
/-- No more tickets are out than there are threads. -/
theorem Inv.taken_le (h : s.Inv W R) : s.taken ≤ W + Fintype.card ι := by
  have hle := total_le (s := s)
  have hreaders := h.readers
  have hserving := h.serving
  have hwaiting := h.waiting
  omega

theorem Inv.not_serving (h : s.Inv W R) (hi : (s.place i).serving = 1) (hj : j ≠ i) :
    (s.place j).serving = 0 := by
  have hle := Threads.add_le_total Place.serving s.place hj
  have hone := h.one
  omega

/-! ### Threads that stay where they are -/

/-- A thread that is not served only asks that its ticket is not. -/
theorem Fine.of_not_serving {served taken ticket served' taken' W' R' : ℕ}
    (h : Fine served taken W R ticket p) (hp : p.serving = 0) (htaken : taken ≤ taken')
    (hserved : p.waiting = 1 → served' ≤ ticket) : Fine served' taken' W' R' ticket p := by
  cases p with
  | readerWaiting me => exact ⟨h.1, hserved rfl, Nat.lt_of_lt_of_le h.2.2 htaken⟩
  | writerWaiting me => exact ⟨h.1, hserved rfl, Nat.lt_of_lt_of_le h.2.2 htaken⟩
  | idle | reader | upgrading | swapping => exact h
  | readerEntering | readerStoring | writer | releasing | downgrading => cases hp

theorem Fine.ticket {served taken ticket : ℕ} (h : Fine served taken W R ticket p)
    (hp : p.waiting = 1) : served ≤ ticket ∧ ticket < taken := by
  cases p with
  | readerWaiting me => exact h.2
  | writerWaiting me => exact h.2
  | _ => cases hp

theorem Fine.mono {served taken ticket taken' : ℕ} (h : Fine served taken W R ticket p)
    (htaken : taken ≤ taken') : Fine served taken' W R ticket p := by
  cases p with
  | readerWaiting me => exact ⟨h.1, h.2.1, Nat.lt_of_lt_of_le h.2.2 htaken⟩
  | writerWaiting me => exact ⟨h.1, h.2.1, Nat.lt_of_lt_of_le h.2.2 htaken⟩
  | _ => exact h

/-! ### Counters of sixteen bits -/

theorem next16_mod (x : ℕ) : next16 (x % 2 ^ 16) = (x + 1) % 2 ^ 16 := Nat.mod_add_mod x (2 ^ 16) 1

theorem sub16_one (x : ℕ) : sub16 ((x + 1) % 2 ^ 16) 1 = x % 2 ^ 16 := by
  unfold sub16
  omega

/-- Counters that are less than `2 ^ 16` apart are told apart by what is left of them. -/
theorem eq_of_sub16 {t x : ℕ} (h : sub16 (t % 2 ^ 16) (x % 2 ^ 16) = 0) (hle : x ≤ t)
    (hlt : t < x + 2 ^ 16) : t = x := by
  unfold sub16 at h
  omega

theorem eq_succ_of_sub {x y : ℕ} (h : ((x % 2 ^ 16 : ℕ) : ℤ) - (y % 2 ^ 16 : ℕ) = 1) (hle : y ≤ x)
    (hlt : x < y + 2 ^ 16) : x = y + 1 := by
  omega

/-! ### One step -/

/-- A thread goes from `q` to `p`, and does not wait there. -/
theorem Inv.change {s' : RwTicketLock ι} {W' R' : ℕ} (h : s.Inv W R) (hq : s.place i = q)
    (hplace : s'.place = Function.update s.place i p) (hp : p.waiting = 0)
    (hticket : s'.ticket = s.ticket) (htaken : s'.taken = s.taken)
    (hhead : s'.value.head = s.value.head) (hreadersTail : s'.value.readersTail = R' % 2 ^ 16)
    (hwritersTail : s'.value.writersTail = W' % 2 ^ 16)
    (hreaders : R' + W + q.reading = R + W' + p.reading)
    (hserved : s'.served.length = s.served.length + q.waiting)
    (hserving : s'.served.length + R + q.serving = s.served.length + R' + p.serving)
    (hone : p.serving ≤ q.serving ∨ Threads.total Place.serving s.place = 0) (horder : s'.InOrder)
    (hfine : Fine s'.served.length s.taken W' R' (s.ticket i) p)
    (hothers : ∀ j, j ≠ i → Fine s'.served.length s.taken W' R' (s.ticket j) (s.place j))
    (hharmless : s'.Harmless) : s'.Inv W' R' := by
  have hreading' := Threads.total_move (w := Place.reading) (a := p) hq
  have hserving' := Threads.total_move (w := Place.serving) (a := p) hq
  have hwaiting' := Threads.total_move (w := Place.waiting) (a := p) hq
  rw [← hplace] at hreading' hserving' hwaiting'
  have hle : p.serving ≤ 1 := by
    have := p.counted_le
    omega
  have hr := h.readers
  have hs := h.serving
  have hw := h.waiting
  have ho := h.one
  refine ⟨?_, hreadersTail, hwritersTail, ?_, ?_, ?_, ?_, horder, ?_, ?_, hharmless⟩
  · rw [hhead, htaken]
    exact h.head
  · omega
  · omega
  · omega
  · omega
  · rw [hplace, hticket, htaken]
    exact (Function.forall_update_iff s.place
      (p := fun j x => Fine s'.served.length s.taken W' R' (s.ticket j) x)).mpr ⟨hfine, hothers⟩
  · rw [hplace, hticket]
    intro j k hjk hj hk
    have hne : ∀ j, (Function.update s.place i p j).waiting = 1 →
        (s.place j).waiting = 1 := by
      intro j hj
      by_cases hji : j = i
      · rw [hji, Function.update_self, hp] at hj
        cases hj
      · rwa [Function.update_of_ne hji] at hj
    exact h.distinct j k hjk (hne j hj) (hne k hk)

/-- A thread takes a ticket. -/
theorem Inv.take (h : s.Inv W R) (hq : s.place i = .idle) {f : ℕ → Place}
    (hwaits : ∀ me, (f me).waiting = 1)
    (hfine : ∀ served taken ticket, served ≤ ticket → ticket < taken →
      Fine served taken W R ticket (f (ticket % 2 ^ 16))) : (s.take i f).Inv W R := by
  have hcounted := (f s.value.head).counted_le
  have hwaits' := hwaits s.value.head
  have hreading := Threads.total_move (w := Place.reading) (a := f s.value.head) hq
  have hserving := Threads.total_move (w := Place.serving) (a := f s.value.head) hq
  have hwaiting := Threads.total_move (w := Place.waiting) (a := f s.value.head) hq
  have hidle : Place.idle.reading = 0 ∧ Place.idle.serving = 0 ∧ Place.idle.waiting = 0 :=
    ⟨rfl, rfl, rfl⟩
  have hr := h.readers
  have hs := h.serving
  have hw := h.waiting
  have ho := h.one
  refine ⟨?_, h.readersTail, h.writersTail, ?_, ?_, ?_, ?_, h.inOrder, ?_, ?_, h.harmless⟩
  · show next16 s.value.head = (s.taken + 1) % 2 ^ 16
    rw [h.head, next16_mod]
  · show R = W + Threads.total Place.reading (Function.update s.place i (f s.value.head))
    omega
  · show s.served.length =
      R + Threads.total Place.serving (Function.update s.place i (f s.value.head))
    omega
  · show s.taken + 1 =
      s.served.length + Threads.total Place.waiting (Function.update s.place i (f s.value.head))
    omega
  · show Threads.total Place.serving (Function.update s.place i (f s.value.head)) ≤ 1
    omega
  · intro j
    show Fine s.served.length (s.taken + 1) W R (Function.update s.ticket i s.taken j)
      (Function.update s.place i (f s.value.head) j)
    by_cases hji : j = i
    · rw [hji, Function.update_self, Function.update_self, h.head]
      exact hfine _ _ _ (by omega) (Nat.lt_succ_self _)
    · rw [Function.update_of_ne hji, Function.update_of_ne hji]
      exact (h.fine j).mono (Nat.le_succ _)
  · have hold : ∀ j, j ≠ i → (Function.update s.place i (f s.value.head) j).waiting = 1 →
        (s.place j).waiting = 1 ∧ Function.update s.ticket i s.taken j = s.ticket j ∧
          s.ticket j < s.taken := by
      intro j hji hj
      rw [Function.update_of_ne hji] at hj
      exact ⟨hj, Function.update_of_ne hji _ _, ((h.fine j).ticket hj).2⟩
    intro j k hjk hj hk
    show Function.update s.ticket i s.taken j ≠ Function.update s.ticket i s.taken k
    by_cases hji : j = i
    · obtain ⟨-, hk', hlt⟩ := hold k (fun h => hjk (hji.trans h.symm)) hk
      rw [hk', hji, Function.update_self]
      omega
    · obtain ⟨hj', hj'', hlt⟩ := hold j hji hj
      by_cases hki : k = i
      · rw [hj'', hki, Function.update_self]
        omega
      · obtain ⟨hk', hk'', -⟩ := hold k hki hk
        rw [hj'', hk'']
        exact h.distinct j k hjk hj' hk'

omit [DecidableEq ι] in
theorem Inv.served_ne (h : s.Inv W R) (hi : (s.place i).waiting = 1)
    (hticket : s.ticket i = s.served.length) (hj : j ≠ i) :
    (s.place j).waiting = 1 → s.served.length + 1 ≤ s.ticket j := by
  intro hwaiting
  have hle := ((h.fine j).ticket hwaiting).1
  have hne := h.distinct j i hj hwaiting hi
  omega

/-- The loop of an acquisition is left by the thread whose ticket is next, and nobody else is on
the way in or the writer. -/
theorem Inv.serve (h : s.Inv W R) (hq : s.place i = q) (hwaiting : q.waiting = 1)
    (hnone : Threads.total Place.serving s.place = 0) (hticket : s.ticket i = s.served.length)
    (hp : p.serving = 1) (hfine : ∀ served taken ticket, Fine served taken W R ticket p) :
    (s.serve i p).Inv W R := by
  have hcounted := p.counted_le
  have hcounted' := q.counted_le
  refine h.change hq rfl (by omega) rfl rfl rfl h.readersTail h.writersTail (by omega) ?_ ?_
    (Or.inr hnone) ?_ (hfine _ _ _) ?_ h.harmless
  · show (s.served ++ [s.ticket i]).length = s.served.length + q.waiting
    rw [List.length_append, hwaiting]
    rfl
  · show (s.served ++ [s.ticket i]).length + R + q.serving = s.served.length + R + p.serving
    rw [List.length_append, List.length_singleton]
    omega
  · show s.served ++ [s.ticket i] = List.range (s.served ++ [s.ticket i]).length
    rw [List.length_append, List.length_singleton, List.range_succ, ← h.inOrder, hticket]
  · intro j hj
    refine (h.fine j).of_not_serving ?_ le_rfl ?_
    · exact Threads.total_eq_zero.mp hnone j
    · show (s.place j).waiting = 1 → (s.served ++ [s.ticket i]).length ≤ s.ticket j
      rw [List.length_append, List.length_singleton]
      exact h.served_ne (by rw [hq, hwaiting]) hticket hj

omit [DecidableEq ι] in
/-- The tails do not come to another thread's ticket by wrapping. -/
theorem Inv.ticket_lt (h : s.Inv W R) (hn : Fintype.card ι < 2 ^ 16)
    (hq : (s.place i).waiting = 1) :
    W ≤ R ∧ R ≤ s.served.length ∧ s.served.length ≤ s.ticket i ∧ s.ticket i < W + 2 ^ 16 := by
  have hr := h.readers
  have hs := h.serving
  have hle := h.taken_le
  obtain ⟨hserved, htaken⟩ := (h.fine i).ticket hq
  omega

theorem Inv.readerWaiting (h : s.Inv W R) (hn : Fintype.card ι < 2 ^ 16) {me : ℕ}
    (hq : s.place i = .readerWaiting me) (hdiff : sub16 me s.value.readersTail = 0) :
    (s.serve i .readerEntering).Inv W R := by
  have hme := h.fine i
  rw [hq] at hme
  obtain ⟨hW, hR, hserved, hlt⟩ := h.ticket_lt hn (i := i) (by rw [hq]; rfl)
  have hs := h.serving
  rw [hme.1, h.readersTail] at hdiff
  have hticket := eq_of_sub16 hdiff (by omega) (by omega)
  exact h.serve hq rfl (by omega) (by omega) rfl fun _ _ _ => trivial

theorem Inv.writerWaiting (h : s.Inv W R) (hn : Fintype.card ι < 2 ^ 16) {me : ℕ}
    (hq : s.place i = .writerWaiting me) (hdiff : sub16 me s.value.writersTail = 0) :
    (s.serve i .writer).Inv W R := by
  have hme := h.fine i
  rw [hq] at hme
  obtain ⟨hW, hR, hserved, hlt⟩ := h.ticket_lt hn (i := i) (by rw [hq]; rfl)
  have hs := h.serving
  rw [hme.1, h.writersTail] at hdiff
  have hticket := eq_of_sub16 hdiff (by omega) (by omega)
  exact h.serve hq rfl (by omega) (by omega) rfl fun _ _ _ => show R = W by omega

/-- A thread loads, and remembers what it has loaded. -/
theorem Inv.load (h : s.Inv W R) (hq : s.place i = q) (hp : p.waiting = q.waiting)
    (hwaiting : q.waiting = 0) (hreading : p.reading = q.reading) (hserving : p.serving = q.serving)
    (hfine : ∀ served taken ticket, Fine served taken W R ticket q →
      Fine served taken W R ticket p) : (s.move i p).Inv W R := by
  refine h.change hq rfl (hp.trans hwaiting) rfl rfl rfl h.readersTail h.writersTail (by omega) ?_ ?_
    (Or.inl hserving.le) h.inOrder ?_ (fun j _ => h.fine j) h.harmless
  · show s.served.length = s.served.length + q.waiting
    omega
  · show s.served.length + R + q.serving = s.served.length + R + p.serving
    omega
  · have hi := h.fine i
    rw [hq] at hi
    exact hfine _ _ _ hi

/-- A thread stops being served: with the tails where they are then nobody else is concerned. -/
theorem Inv.leave (h : s.Inv W R) (hq : s.place i = q) (hserving : q.serving = 1)
    {value : RwTicket} {W' R' : ℕ} (hhead : value.head = s.value.head)
    (hreadersTail : value.readersTail = R' % 2 ^ 16) (hwritersTail : value.writersTail = W' % 2 ^ 16)
    (hR : R' = R + 1) (hreaders : R' + W = R + W' + p.reading) (hp : p.waiting = 0)
    (hp' : p.serving = 0) (hfine : ∀ served taken ticket, Fine served taken W' R' ticket p) :
    ({ s.move i p with value := value } : RwTicketLock ι).Inv W' R' := by
  have hcounted := q.counted_le
  refine h.change hq rfl hp rfl rfl hhead hreadersTail hwritersTail (by omega) ?_ ?_
    (Or.inl (by omega)) h.inOrder (hfine _ _ _) ?_ h.harmless
  · show s.served.length = s.served.length + q.waiting
    omega
  · show s.served.length + R + q.serving = s.served.length + R' + p.serving
    omega
  · intro j hj
    refine (h.fine j).of_not_serving (h.not_serving (by rw [hq, hserving]) hj) le_rfl ?_
    intro hwaiting
    exact ((h.fine j).ticket hwaiting).1

/-- A thread becomes a reader and lets the next ones in. -/
theorem Inv.becomeReader (h : s.Inv W R) (hq : s.place i = q) (hserving : q.serving = 1)
    {tail : ℕ} (htail : tail = R % 2 ^ 16) :
    ({ s.move i .reader with
      value := { s.value with readersTail := next16 tail } } : RwTicketLock ι).Inv W (R + 1) := by
  refine h.leave hq hserving rfl ?_ h.writersTail rfl (Nat.add_right_comm R 1 W) rfl rfl
    fun _ _ _ => trivial
  show next16 tail = (R + 1) % 2 ^ 16
  rw [htail, next16_mod]

theorem Inv.readerStoring (h : s.Inv W R) {tail : ℕ} (hq : s.place i = .readerStoring tail) :
    ({ s.move i .reader with
      value := { s.value with readersTail := next16 tail } } : RwTicketLock ι).Inv W (R + 1) := by
  have htail := h.fine i
  rw [hq] at htail
  exact h.becomeReader hq rfl htail

theorem Inv.releasing (h : s.Inv W R) {temp : RwTicket} (hq : s.place i = .releasing temp) :
    ({ s.move i .idle with
      value := { s.value with
        writersTail := next16 temp.writersTail
        readersTail := next16 temp.readersTail } } : RwTicketLock ι).Inv (W + 1) (R + 1) := by
  have htemp := h.fine i
  rw [hq] at htemp
  obtain ⟨-, hw, hr⟩ := htemp
  refine h.leave hq rfl rfl ?_ ?_ rfl (Nat.add_right_comm R 1 W) rfl rfl fun _ _ _ => trivial
  · show next16 temp.readersTail = (R + 1) % 2 ^ 16
    rw [hr, next16_mod]
  · show next16 temp.writersTail = (W + 1) % 2 ^ 16
    rw [hw, next16_mod]

theorem Inv.downgrading (h : s.Inv W R) {tail : ℕ} (hq : s.place i = .downgrading tail) :
    ({ s.move i .reader with
      value := { s.value with readersTail := next16 tail } } : RwTicketLock ι).Inv W (R + 1) := by
  have htail := h.fine i
  rw [hq] at htail
  exact h.becomeReader hq rfl htail.2

omit [DecidableEq ι] in
/-- While somebody reads, nobody is the writer. -/
theorem Inv.no_writer (h : s.Inv W R) (hi : (s.place i).reading = 1) (j : ι)
    (hj : (s.place j).HoldsAsWriter) : False := by
  have hle := Threads.le_total Place.reading s.place i
  have hr := h.readers
  have hfine := h.fine j
  have heq : R = W := by
    cases hp : s.place j with
    | writer =>
        rw [hp] at hfine
        exact hfine
    | releasing temp =>
        rw [hp] at hfine
        exact hfine.1
    | downgrading tail =>
        rw [hp] at hfine
        exact hfine.1
    | _ =>
        rw [hp] at hj
        cases hj
  omega

theorem Inv.releaseAsReader (h : s.Inv W R) (hq : s.place i = .reader) :
    (s.releaseAsReader i).Inv (W + 1) R := by
  have hserving := h.serving
  refine h.change hq rfl rfl rfl rfl rfl h.readersTail ?_ ?_ rfl rfl (Or.inl le_rfl) h.inOrder
    trivial ?_ h.harmless
  · show next16 s.value.writersTail = (W + 1) % 2 ^ 16
    rw [h.writersTail, next16_mod]
  · show R + W + 1 = R + (W + 1) + 0
    omega
  · intro j _
    have hfine := h.fine j
    have hnone := h.no_writer (i := i) (by rw [hq]; rfl) j
    show Fine s.served.length s.taken (W + 1) R (s.ticket j) (s.place j)
    cases hp : s.place j with
    | writer | releasing | downgrading =>
        rw [hp] at hnone
        exact (hnone trivial).elim
    | _ =>
        rw [hp] at hfine
        exact hfine

/-- An upgrade returns false without having changed the lock. -/
theorem Inv.refused (h : s.Inv W R) (hq : s.place i = q) (hreading : q.reading = 1) :
    (s.upgraded i false false).Inv W R := by
  have hcounted := q.counted_le
  refine h.change (p := .reader) hq rfl rfl rfl rfl rfl h.readersTail h.writersTail ?_ ?_ ?_
    (Or.inl (Nat.zero_le _)) h.inOrder trivial (fun j _ => h.fine j) ?_
  · rw [hreading]
    rfl
  · show s.served.length = s.served.length + q.waiting
    omega
  · show s.served.length + R + q.serving = s.served.length + R + 0
    omega
  · intro j swapped hj
    have hj : Function.update s.upgrade i (some (false, false)) j = some (false, swapped) := hj
    by_cases hji : j = i
    · rw [hji, Function.update_self] at hj
      cases hj
      rfl
    · rw [Function.update_of_ne hji] at hj
      exact h.harmless j swapped hj

theorem Inv.loadForUpgrade (h : s.Inv W R) (hq : s.place i = q) (hreading : q.reading = 1)
    (weak : Bool) : (s.loadForUpgrade i weak false).Inv W R := by
  have hcounted := q.counted_le
  unfold RwTicketLock.loadForUpgrade
  split
  next hdiff => exact h.refused hq hreading
  next hdiff =>
    exact h.load hq (by rw [show q.waiting = 0 by omega]; rfl) (by omega) hreading.symm
      (by rw [show q.serving = 0 by omega]; rfl) fun _ _ _ _ => ⟨rfl, not_not.mp hdiff⟩

theorem Inv.notSwapped (h : s.Inv W R) {weak : Bool} {cur : RwTicket}
    (hq : s.place i = .swapping weak false cur) : (s.notSwapped i weak false cur).Inv W R := by
  unfold RwTicketLock.notSwapped
  split
  · exact h.refused hq rfl
  · exact h.load hq rfl rfl rfl rfl fun _ _ _ _ => rfl

/-- The weak upgrade pushes the readers' tail back, and the thread is served once more. -/
theorem Inv.swapped (h : s.Inv W R) (hn : Fintype.card ι < 2 ^ 16) {cur : RwTicket}
    (hq : s.place i = .swapping true false cur) (hcur : s.value = cur)
    (hentering : ∀ j, ¬ (s.place j).Entering) :
    ((s.pushBack cur).upgraded i true true).Inv W W := by
  have hfine := h.fine i
  rw [hq] at hfine
  have hdiff := hfine.2
  rw [← hcur, h.readersTail, h.writersTail] at hdiff
  have hr := h.readers
  have hle := total_le (s := s)
  obtain rfl := eq_succ_of_sub hdiff (by omega) (by omega)
  have hnone : ∀ j, (s.place j).serving = 0 := by
    intro j
    have hreader := hentering j
    have hwriter := h.no_writer (i := i) (by rw [hq]; rfl) j
    cases hp : s.place j with
    | readerEntering | readerStoring =>
        rw [hp] at hreader
        exact (hreader trivial).elim
    | writer | releasing | downgrading =>
        rw [hp] at hwriter
        exact (hwriter trivial).elim
    | _ => rfl
  have hserving := Threads.total_eq_zero.mpr hnone
  refine h.change (p := .writer) hq rfl rfl rfl rfl ?_ ?_ ?_ ?_ rfl ?_ (Or.inr hserving) h.inOrder
    rfl ?_ ?_
  · dsimp only [pushBack, upgraded, move]
    rw [hcur]
  · show sub16 cur.readersTail 1 = W % 2 ^ 16
    rw [← hcur, h.readersTail, sub16_one]
  · dsimp only [pushBack, upgraded, move]
    rw [← hcur, h.writersTail]
  · show W + W + 1 = W + 1 + W + 0
    omega
  · show s.served.length + (W + 1) + 0 = s.served.length + W + 1
    omega
  · intro j _
    exact (h.fine j).of_not_serving (hnone j) le_rfl fun hwaiting => ((h.fine j).ticket hwaiting).1
  · intro j swapped hj
    have hj : Function.update s.upgrade i (some (true, true)) j = some (false, swapped) := hj
    by_cases hji : j = i
    · rw [hji, Function.update_self] at hj
      cases hj
    · rw [Function.update_of_ne hji] at hj
      exact h.harmless j swapped hj

theorem Inv.swapping (h : s.Inv W R) (hn : Fintype.card ι < 2 ^ 16) {weak swapped : Bool}
    {cur : RwTicket} (hq : s.place i = .swapping weak swapped cur)
    (hfit : s.value = cur → weak = true ∧ ∀ j, ¬ (s.place j).Entering) :
    ∃ R', (s.swap i weak swapped cur).Inv W R' := by
  have hfine := h.fine i
  rw [hq] at hfine
  obtain rfl := hfine.1
  unfold RwTicketLock.swap
  split
  next heq =>
    obtain ⟨rfl, hentering⟩ := hfit heq
    exact ⟨W, h.swapped hn hq heq hentering⟩
  next => exact ⟨R, h.notSwapped hq⟩

theorem Inv.advance (h : s.Inv W R) (hn : Fintype.card ι < 2 ^ 16) (hfit : s.Fit (.advance i)) :
    ∃ W' R', (s.advance i).Inv W' R' := by
  unfold RwTicketLock.advance
  cases hq : s.place i with
  | idle => exact ⟨W, R, h⟩
  | reader => exact ⟨W, R, h⟩
  | writer => exact ⟨W, R, h⟩
  | readerWaiting me =>
      dsimp only
      split
      next hdiff => exact ⟨W, R, h.readerWaiting hn hq hdiff⟩
      next => exact ⟨W, R, h⟩
  | readerEntering =>
      exact ⟨W, R, h.load hq rfl rfl rfl rfl fun _ _ _ _ => h.readersTail⟩
  | readerStoring tail => exact ⟨W, R + 1, h.readerStoring hq⟩
  | writerWaiting me =>
      dsimp only
      split
      next hdiff => exact ⟨W, R, h.writerWaiting hn hq hdiff⟩
      next => exact ⟨W, R, h⟩
  | releasing temp => exact ⟨W + 1, R + 1, h.releasing hq⟩
  | downgrading tail => exact ⟨W, R + 1, h.downgrading hq⟩
  | upgrading swapped =>
      have hfine := h.fine i
      rw [hq] at hfine
      obtain rfl : swapped = false := hfine
      exact ⟨W, R, h.loadForUpgrade hq rfl false⟩
  | swapping weak swapped cur =>
      obtain ⟨R', h'⟩ := h.swapping hn hq (hfit weak swapped cur hq)
      exact ⟨W, R', h'⟩

theorem Inv.fail (h : s.Inv W R) : (s.fail i).Inv W R := by
  unfold RwTicketLock.fail
  split
  next swapped cur hq =>
    have hfine := h.fine i
    rw [hq] at hfine
    obtain rfl := hfine.1
    exact h.notSwapped hq
  next => exact h

/-! ## Runs -/

theorem Inv.step (h : s.Inv W R) (hn : Fintype.card ι < 2 ^ 16) (a : Action ι) (ha : s.Enabled a)
    (hfit : s.Fit a) : ∃ W' R', (s.perform a).Inv W' R' := by
  cases a with
  | acquireAsReader i =>
      exact ⟨W, R, h.take ha (fun _ => rfl) fun _ _ _ hle hlt => ⟨rfl, hle, hlt⟩⟩
  | acquireAsWriter i =>
      exact ⟨W, R, h.take ha (fun _ => rfl) fun _ _ _ hle hlt => ⟨rfl, hle, hlt⟩⟩
  | releaseAsReader i => exact ⟨W + 1, R, h.releaseAsReader ha⟩
  | releaseAsWriter i =>
      exact ⟨W, R, h.load ha rfl rfl rfl rfl fun _ _ _ heq => ⟨heq, h.writersTail, h.readersTail⟩⟩
  | downgradeToReader i =>
      exact ⟨W, R, h.load ha rfl rfl rfl rfl fun _ _ _ heq => ⟨heq, h.readersTail⟩⟩
  | upgradeToWriter i weak => exact ⟨W, R, h.loadForUpgrade ha rfl weak⟩
  | advance i => exact h.advance hn hfit
  | fail i => exact ⟨W, R, h.fail⟩

omit [DecidableEq ι] in
theorem inv_initial : (initial : RwTicketLock ι).Inv 0 0 := by
  have hzero : ∀ {w : Place → ℕ}, w .idle = 0 →
      Threads.total w (initial : RwTicketLock ι).place = 0 := Threads.total_const _
  refine ⟨rfl, rfl, rfl, ?_, ?_, ?_, ?_, rfl, fun _ => trivial, ?_, ?_⟩
  · rw [hzero rfl]
  · rw [hzero rfl]
    rfl
  · rw [hzero rfl]
    rfl
  · rw [hzero rfl]
    exact Nat.zero_le _
  · intro i j _ hi
    cases hi
  · intro i swapped hi
    cases hi

theorem Reachable.inv (hn : Fintype.card ι < 2 ^ 16) (h : Reachable Fit s) : ∃ W R, s.Inv W R := by
  induction h with
  | start => exact ⟨0, 0, inv_initial⟩
  | step a _ ha hfit ih =>
      obtain ⟨W, R, h⟩ := ih
      exact h.step hn a ha hfit

/-! ## Exclusion -/

theorem Inv.toExclusive (h : s.Inv W R) : s.Exclusive := by
  intro i j hi hj
  by_contra hij
  have hserving : ∀ k, (s.place k).HoldsAsWriter → (s.place k).serving = 1 := by
    intro k hk
    cases hp : s.place k with
    | writer | releasing | downgrading => rfl
    | _ =>
        rw [hp] at hk
        cases hk
  cases hj with
  | inl hj =>
      have hle := Threads.add_le_total Place.serving s.place hij
      rw [hserving i hi, hserving j hj] at hle
      have hone := h.one
      omega
  | inr hj => exact h.no_writer hj i hi

omit [DecidableEq ι] in
theorem Inv.intact (h : s.Inv W R) (i : ι) : Intact s.value (s.place i) := by
  have hfine := h.fine i
  cases hp : s.place i with
  | readerStoring tail =>
      rw [hp] at hfine
      exact h.readersTail.trans hfine.symm
  | releasing temp =>
      rw [hp] at hfine
      exact ⟨h.writersTail.trans hfine.2.1.symm, h.readersTail.trans hfine.2.2.symm⟩
  | downgrading tail =>
      rw [hp] at hfine
      exact h.readersTail.trans hfine.2.symm
  | _ => trivial

omit [Fintype ι] in
theorem move_inUpgrade (h : ∀ i, ¬ (s.place i).InUpgrade) (hp : ¬ p.InUpgrade) (j : ι) :
    ¬ ((s.move i p).place j).InUpgrade := by
  show ¬ (Function.update s.place i p j).InUpgrade
  by_cases hji : j = i
  · rw [hji, Function.update_self]
    exact hp
  · rw [Function.update_of_ne hji]
    exact h j

omit [Fintype ι] in
theorem advance_inUpgrade (h : ∀ i, ¬ (s.place i).InUpgrade) (j : ι) :
    ¬ ((s.advance i).place j).InUpgrade := by
  have hi := h i
  unfold RwTicketLock.advance
  cases hq : s.place i with
  | idle | reader | writer => exact h j
  | readerWaiting me | writerWaiting me =>
      dsimp only
      split
      · exact move_inUpgrade h id j
      · exact h j
  | readerEntering => exact move_inUpgrade h id j
  | readerStoring tail => exact move_inUpgrade h id j
  | releasing temp => exact move_inUpgrade h id j
  | downgrading tail => exact move_inUpgrade h id j
  | upgrading | swapping =>
      rw [hq] at hi
      exact (hi trivial).elim

omit [Fintype ι] in
theorem fail_inUpgrade (h : ∀ i, ¬ (s.place i).InUpgrade) (j : ι) :
    ¬ ((s.fail i).place j).InUpgrade := by
  have hi := h i
  unfold RwTicketLock.fail
  split
  next hq =>
    rw [hq] at hi
    exact (hi trivial).elim
  next => exact h j

omit [Fintype ι] in
/-- Without upgrades nobody is in one. -/
theorem Reachable.fit_of_plain (h : Reachable plain s) :
    Reachable Fit s ∧ ∀ i, ¬ (s.place i).InUpgrade := by
  induction h with
  | start => exact ⟨.start, fun _ => not_false⟩
  | step a _ ha hplain ih =>
      obtain ⟨h, hnone⟩ := ih
      refine ⟨.step a h ha ?_, ?_⟩
      · cases a with
        | advance i =>
            intro weak swapped cur hq
            have hi := hnone i
            rw [hq] at hi
            exact (hi trivial).elim
        | _ => trivial
      · cases a with
        | acquireAsReader i => exact move_inUpgrade hnone id
        | acquireAsWriter i => exact move_inUpgrade hnone id
        | releaseAsReader i => exact move_inUpgrade hnone id
        | releaseAsWriter i => exact move_inUpgrade hnone id
        | downgradeToReader i => exact move_inUpgrade hnone id
        | upgradeToWriter i weak => exact hplain.elim
        | advance i => exact advance_inUpgrade hnone
        | fail i => exact fail_inUpgrade hnone

/-- Without upgrades: the writer is alone, tickets are served in order, and what is written
back has not changed in the meantime. -/
theorem Reachable.readers_exclude_writers (hn : Fintype.card ι < 2 ^ 16) (h : Reachable plain s) :
    s.Exclusive ∧ s.InOrder ∧ ∀ i, Intact s.value (s.place i) := by
  obtain ⟨W, R, hinv⟩ := h.fit_of_plain.1.inv hn
  exact ⟨hinv.toExclusive, hinv.inOrder, hinv.intact⟩

theorem two_threads : Fintype.card (Fin 2) < 2 ^ 16 := by
  rw [Fintype.card_fin]
  norm_num

/-- One of two threads becomes the writer. -/
theorem Reachable.exclusive_writer : ∃ s : RwTicketLock (Fin 2), s.place 0 = .writer ∧
    s.Exclusive ∧ s.InOrder ∧ ∀ i, Intact s.value (s.place i) := by
  have h : Reachable plain (initial : RwTicketLock (Fin 2)) := .start
  have h := h.step (.acquireAsWriter 0) rfl trivial
  have h := h.step (.advance 0) trivial trivial
  exact ⟨_, rfl, Reachable.readers_exclude_writers two_threads h⟩

/-! ## Upgrades -/

omit [Fintype ι] in
theorem iterate_advance_reader (hq : s.place i = .reader) (n : ℕ) :
    (RwTicketLock.advance i)^[n] s = s := by
  refine Function.iterate_fixed ?_ n
  unfold RwTicketLock.advance
  rw [hq]

omit [Fintype ι] in
theorem swap_of_eq {weak swapped : Bool} {cur : RwTicket} (h : s.value = cur) :
    s.swap i weak swapped cur =
      if weak then (s.pushBack cur).upgraded i true true
      else (s.pushBack cur).move i (.upgrading true) := if_pos h

omit [DecidableEq ι] in
/-- After the exchange of the strong form the tails are the same. -/
theorem Inv.pushBack_sub (h : s.Inv W R)
    (hdiff : (s.value.readersTail : ℤ) - s.value.writersTail = 1) :
    ((s.pushBack s.value).value.readersTail : ℤ) - (s.pushBack s.value).value.writersTail ≠ 1 := by
  have hw := h.writersTail
  dsimp only [pushBack]
  unfold sub16
  omega

omit [Fintype ι] in
theorem advance_swapping (s : RwTicketLock ι) (i : ι) (weak : Bool) :
    (s.move i (.swapping weak false s.value)).advance i =
      if weak then ((s.move i (.swapping weak false s.value)).pushBack s.value).upgraded i true true
      else ((s.move i (.swapping weak false s.value)).pushBack s.value).move i (.upgrading true) := by
  have hplace : (s.move i (.swapping weak false s.value)).place i =
      .swapping weak false s.value := Function.update_self _ _ _
  unfold RwTicketLock.advance
  rw [hplace]
  exact swap_of_eq rfl

/-- The loop of the strong form goes on after its exchange, and the next load returns false. -/
theorem Inv.advance_upgrading (h : s.Inv W R) (p : Place)
    (hdiff : (s.value.readersTail : ℤ) - s.value.writersTail = 1) :
    (((s.move i p).pushBack s.value).move i (.upgrading true)).advance i =
      (((s.move i p).pushBack s.value).move i (.upgrading true)).upgraded i false true := by
  have hplace : (((s.move i p).pushBack s.value).move i (.upgrading true)).place i =
      .upgrading true := Function.update_self _ _ _
  unfold RwTicketLock.advance
  rw [hplace]
  exact if_pos (h.pushBack_sub hdiff)

/-- Undisturbed the weak form returns true, unless the readers' tail has wrapped and the writers'
tail has not; the strong form does not. -/
theorem Inv.upgrades_iff (h : s.Inv W R) (i : ι) (weak : Bool) :
    s.Upgrades i weak ↔
      weak = true ∧ (s.value.readersTail : ℤ) - s.value.writersTail = 1 := by
  unfold Upgrades upgradeToWriter RwTicketLock.loadForUpgrade
  split
  next hdiff =>
    have hback : (s.upgraded i false false).place i = .reader := Function.update_self _ _ _
    refine ⟨?_, fun hweak => (hdiff hweak.2).elim⟩
    rintro ⟨n, hwriter⟩
    rw [iterate_advance_reader hback, hback] at hwriter
    cases hwriter
  next hdiff =>
    have hdiff := not_not.mp hdiff
    have hnext := advance_swapping s i weak
    cases weak with
    | true =>
        refine ⟨fun _ => ⟨rfl, hdiff⟩, fun _ => ⟨1, ?_⟩⟩
        rw [Function.iterate_one, hnext]
        exact Function.update_self _ _ _
    | false =>
        refine ⟨?_, fun hweak => absurd hweak.1 Bool.false_ne_true⟩
        rintro ⟨n, hwriter⟩
        have hnext := hnext.trans (if_neg Bool.false_ne_true)
        match n with
        | 0 =>
            have hplace := (Function.update_self i _ s.place).symm.trans hwriter
            cases hplace
        | 1 =>
            rw [Function.iterate_one, hnext] at hwriter
            have hplace := (Function.update_self i _ _).symm.trans hwriter
            cases hplace
        | n + 2 =>
            rw [Function.iterate_succ_apply, hnext, Function.iterate_succ_apply,
              h.advance_upgrading _ hdiff] at hwriter
            have hback : ((((s.move i (.swapping false false s.value)).pushBack s.value).move i
                (.upgrading true)).upgraded i false true).place i = .reader :=
              Function.update_self _ _ _
            rw [iterate_advance_reader hback, hback] at hwriter
            cases hwriter

/-- The first of two threads has become a reader. -/
def entered : RwTicketLock (Fin 2) :=
  let first : Fin 2 := ⟨0, Nat.two_pos⟩
  (((initial.acquireAsReader first).advance first).advance first).advance first

theorem reachable_entered {kind : RwTicketLock (Fin 2) → Action (Fin 2) → Prop}
    (hacquire : ∀ s i, kind s (.acquireAsReader i))
    (hadvance : ∀ s i, (∀ weak swapped cur, s.place i ≠ .swapping weak swapped cur) →
      kind s (.advance i)) : Reachable kind entered := by
  have h : Reachable kind initial := .start
  have h := h.step (.acquireAsReader 0) rfl (hacquire _ _)
  have h := h.step (.advance 0) trivial (hadvance _ _ fun _ _ _ hp => by cases hp)
  have h := h.step (.advance 0) trivial (hadvance _ _ fun _ _ _ hp => by cases hp)
  exact h.step (.advance 0) trivial (hadvance _ _ fun _ _ _ hp => by cases hp)

end RwTicketLock

end Beelzebub.Sync
