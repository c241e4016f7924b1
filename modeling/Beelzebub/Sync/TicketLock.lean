import Beelzebub.Sync.RwTicketLock

/-!
# The ticket lock

A word of two counters of sixteen bits.  A thread draws a ticket from one of them and waits until
the other comes to it; a release moves the other one on.  `TryAcquire` draws a ticket only when
the counters are equal.

There are two implementations, that of the header and that which is built out of line, and they
differ in which counter is which.  `TicketLockUninterruptible` makes the same accesses in both;
what it does to the interrupts is not modelled.

A step is one access of the word.
-/

namespace Beelzebub.Sync

/-! ## The code -/

/-- `ticketlock_t`. -/
structure Ticketlock where
  tail : ℕ
  head : ℕ
  deriving DecidableEq

/-- Which implementation is built: the settings have `NO_INLINE_SPINLOCKS` or not. -/
inductive Build where
  | inline
  | outOfLine
  deriving DecidableEq

namespace Build

/-- The counter that `Acquire` adds to, and that `TryAcquire` loads. -/
def drawn : Build → Ticketlock → ℕ
  | .inline, value => value.head
  | .outOfLine, value => value.tail

/-- The word after the fetch-add of `Acquire`. -/
def draw : Build → Ticketlock → Ticketlock
  | .inline, value => { value with head := next16 value.head }
  | .outOfLine, value => { value with tail := next16 value.tail }

/-- The counter that the loop of `Acquire` loads. -/
def awaited : Build → Ticketlock → ℕ
  | .inline, value => value.tail
  | .outOfLine, value => value.head

/-- The loop of `Acquire` is left.  In the header it is left when the difference is zero. -/
def Served : Build → ℕ → Ticketlock → Prop
  | .inline, myTicket, value => sub16 myTicket value.tail = 0
  | .outOfLine, myTicket, value => value.head = myTicket

instance (b : Build) (myTicket : ℕ) (value : Ticketlock) : Decidable (b.Served myTicket value) :=
  match b with
  | .inline => inferInstanceAs (Decidable (_ = _))
  | .outOfLine => inferInstanceAs (Decidable (_ = _))

/-- The word after `Release`. -/
def pass : Build → Ticketlock → Ticketlock
  | .inline, value => { value with tail := next16 value.tail }
  | .outOfLine, value => { value with head := next16 value.head }

/-- `newVal` of `TryAcquire`, from what it has loaded. -/
def newVal : Build → ℕ → Ticketlock
  | .inline, oldHead => ⟨oldHead, next16 oldHead⟩
  | .outOfLine, oldTail => ⟨oldTail, next16 oldTail⟩

/-- `Check`. -/
def check : Build → Ticketlock → Bool
  | .inline, copy => if copy.head ≠ copy.tail then false else true
  | .outOfLine, copy => copy.head == copy.tail

end Build

/-- Where a thread is: in `TryAcquire` after the load, or in the loop of `Acquire`. -/
inductive TicketLock.Place where
  | idle
  | trying (old : ℕ)
  | waiting (myTicket : ℕ)
  | holding

/-- The lock and its threads.  The fields after `place` are only for the record: the tickets that
were drawn, without wrapping, and those that were served, of `TryAcquire` too. -/
structure TicketLock (ι : Type) where
  value : Ticketlock
  place : ι → TicketLock.Place
  ticket : ι → ℕ
  drawn : ℕ
  served : List ℕ

namespace TicketLock

def Place.awaits : Place → ℕ
  | .waiting _ => 1
  | _ => 0

def Place.holds : Place → ℕ
  | .holding => 1
  | _ => 0

variable {ι : Type}

def initial : TicketLock ι where
  value := ⟨0, 0⟩
  place _ := .idle
  ticket _ := 0
  drawn := 0
  served := []

variable [DecidableEq ι]

def move (i : ι) (p : Place) (s : TicketLock ι) : TicketLock ι :=
  { s with place := Function.update s.place i p }

/-- The load of `TryAcquire`. -/
def tryAcquire (b : Build) (i : ι) (s : TicketLock ι) : TicketLock ι :=
  s.move i (.trying (b.drawn s.value))

/-- The fetch-add of `Acquire`. -/
def acquire (b : Build) (i : ι) (s : TicketLock ι) : TicketLock ι :=
  { s.move i (.waiting (b.drawn s.value)) with
    value := b.draw s.value
    ticket := Function.update s.ticket i s.drawn
    drawn := s.drawn + 1 }

def release (b : Build) (i : ι) (s : TicketLock ι) : TicketLock ι :=
  { s.move i .idle with value := b.pass s.value }

/-- The exchange of `TryAcquire`. -/
def exchange (b : Build) (i : ι) (old : ℕ) (s : TicketLock ι) : TicketLock ι :=
  if s.value = ⟨old, old⟩ then
    { s.move i .holding with
      value := b.newVal old
      ticket := Function.update s.ticket i s.drawn
      drawn := s.drawn + 1
      served := s.served ++ [s.drawn] }
  else s.move i .idle

/-- The next access of a thread in the middle of a call. -/
def advance (b : Build) (i : ι) (s : TicketLock ι) : TicketLock ι :=
  match s.place i with
  | .idle => s
  | .trying old => s.exchange b i old
  | .waiting myTicket =>
      if b.Served myTicket s.value then
        { s.move i .holding with served := s.served ++ [s.ticket i] }
      else s
  | .holding => s

inductive Action (ι : Type) where
  | tryAcquire (i : ι)
  | acquire (i : ι)
  | release (i : ι)
  | advance (i : ι)

def perform (b : Build) (s : TicketLock ι) : Action ι → TicketLock ι
  | .tryAcquire i => s.tryAcquire b i
  | .acquire i => s.acquire b i
  | .release i => s.release b i
  | .advance i => s.advance b i

omit [DecidableEq ι] in
/-- The operations are used in matching pairs. -/
def Enabled (s : TicketLock ι) : Action ι → Prop
  | .tryAcquire i => s.place i = .idle
  | .acquire i => s.place i = .idle
  | .release i => s.place i = .holding
  | .advance _ => True

inductive Reachable (b : Build) (kind : TicketLock ι → Action ι → Prop) : TicketLock ι → Prop
  | start : Reachable b kind initial
  | step {s : TicketLock ι} (a : Action ι) : Reachable b kind s → s.Enabled a → kind s a →
      Reachable b kind (s.perform b a)

/-! ## What is asked -/

omit [DecidableEq ι] in
/-- Nobody holds or awaits the lock. -/
def Free (s : TicketLock ι) : Prop := ∀ i, (s.place i).holds = 0 ∧ (s.place i).awaits = 0

structure Sound (b : Build) (s : TicketLock ι) : Prop where
  exclusive : ∀ i j, s.place i = .holding → s.place j = .holding → i = j
  inOrder : s.served = List.range s.served.length
  succeeds : ∀ i old, s.place i = .trying old → (s.advance b i).place i = .holding → s.Free
  fails : ∀ i old, s.place i = .trying old → (s.advance b i).place i ≠ .holding →
    s.advance b i = s.move i .idle
  check : b.check s.value = true ↔ s.Free

/-! ## The condition -/

omit [DecidableEq ι] in
/-- Out of line the exchange of `TryAcquire` is not made on a word with equal counters. -/
def Fit (b : Build) (s : TicketLock ι) : Action ι → Prop
  | .advance i => b = .outOfLine → ∀ old, s.place i = .trying old → s.value ≠ ⟨old, old⟩
  | _ => True

/-! ## The invariant -/

/-- Where a thread may be, with its ticket. -/
def Fine (served drawn ticket : ℕ) : Place → Prop
  | .waiting myTicket => myTicket = ticket % 2 ^ 16 ∧ served ≤ ticket ∧ ticket < drawn
  | _ => True

variable [Fintype ι]

/-- So many holders, `W`, have released the lock. -/
structure Inv (b : Build) (s : TicketLock ι) (W : ℕ) : Prop where
  drawn : b.drawn s.value = s.drawn % 2 ^ 16
  awaited : b.awaited s.value = W % 2 ^ 16
  holding : s.served.length = W + Threads.total Place.holds s.place
  waiting : s.drawn = s.served.length + Threads.total Place.awaits s.place
  one : Threads.total Place.holds s.place ≤ 1
  inOrder : s.served = List.range s.served.length
  fine : ∀ i, Fine s.served.length s.drawn (s.ticket i) (s.place i)
  distinct : ∀ i j, i ≠ j → (s.place i).awaits = 1 → (s.place j).awaits = 1 →
    s.ticket i ≠ s.ticket j

variable {b : Build} {s : TicketLock ι} {W : ℕ} {i j : ι} {p q : Place}

/-! ### The counters -/

theorem drawn_draw (v : Ticketlock) : b.drawn (b.draw v) = next16 (b.drawn v) := by
  cases b <;> rfl

theorem awaited_draw (v : Ticketlock) : b.awaited (b.draw v) = b.awaited v := by
  cases b <;> rfl

theorem drawn_pass (v : Ticketlock) : b.drawn (b.pass v) = b.drawn v := by
  cases b <;> rfl

theorem awaited_pass (v : Ticketlock) : b.awaited (b.pass v) = next16 (b.awaited v) := by
  cases b <;> rfl

theorem drawn_same (x : ℕ) : b.drawn ⟨x, x⟩ = x := by
  cases b <;> rfl

theorem awaited_same (x : ℕ) : b.awaited ⟨x, x⟩ = x := by
  cases b <;> rfl

theorem check_iff (v : Ticketlock) : b.check v = true ↔ b.drawn v = b.awaited v := by
  cases b with
  | inline =>
      show (if v.head ≠ v.tail then false else true) = true ↔ v.head = v.tail
      by_cases h : v.head = v.tail
      · simp [h]
      · simp [h]
  | outOfLine =>
      show (v.head == v.tail) = true ↔ v.tail = v.head
      rw [beq_iff_eq]
      exact eq_comm

/-- The loop of `Acquire` is left when the counter has come to the ticket. -/
theorem served_iff {v : Ticketlock} {x y : ℕ} (hawaited : b.awaited v = x % 2 ^ 16) :
    b.Served (y % 2 ^ 16) v ↔ x % 2 ^ 16 = y % 2 ^ 16 := by
  cases b with
  | inline =>
      have hawaited : v.tail = x % 2 ^ 16 := hawaited
      show sub16 (y % 2 ^ 16) v.tail = 0 ↔ _
      rw [hawaited]
      unfold sub16
      omega
  | outOfLine =>
      have hawaited : v.head = x % 2 ^ 16 := hawaited
      show v.head = y % 2 ^ 16 ↔ _
      rw [hawaited]

/-! ### What the counters say -/

omit [DecidableEq ι] [Fintype ι] in
theorem holds_add_awaits_le (p : Place) : p.holds + p.awaits ≤ 1 := by
  cases p <;> simp [Place.holds, Place.awaits]

omit [DecidableEq ι] in
theorem Inv.drawn_le (h : Inv b s W) : s.drawn ≤ W + Fintype.card ι := by
  have hcard := Threads.total_le_card (f := s.place) holds_add_awaits_le
  rw [Threads.total_add] at hcard
  have hholding := h.holding
  have hwaiting := h.waiting
  omega

omit [DecidableEq ι] in
/-- The lock is free when as many tickets were drawn as holders have released it. -/
theorem Inv.free_iff (h : Inv b s W) : s.Free ↔ s.drawn = W := by
  have hholding := h.holding
  have hwaiting := h.waiting
  constructor
  · intro hfree
    have hholds := Threads.total_eq_zero.mpr fun i => (hfree i).1
    have hawaits := Threads.total_eq_zero.mpr fun i => (hfree i).2
    omega
  · intro hdrawn i
    have hholds : Threads.total Place.holds s.place = 0 := by omega
    have hawaits : Threads.total Place.awaits s.place = 0 := by omega
    exact ⟨Threads.total_eq_zero.mp hholds i, Threads.total_eq_zero.mp hawaits i⟩

omit [DecidableEq ι] in
/-- With fewer than `2 ^ 16` threads the wrapped counters tell the same. -/
theorem Inv.drawn_eq_awaited (h : Inv b s W) (hn : Fintype.card ι < 2 ^ 16) :
    b.drawn s.value = b.awaited s.value ↔ s.drawn = W := by
  have hle := h.drawn_le
  have hholding := h.holding
  have hwaiting := h.waiting
  rw [h.drawn, h.awaited]
  omega

omit [DecidableEq ι] in
theorem Inv.free_of_eq (h : Inv b s W) (hn : Fintype.card ι < 2 ^ 16) {old : ℕ}
    (heq : s.value = ⟨old, old⟩) : s.drawn = W := by
  rw [← h.drawn_eq_awaited hn, heq, drawn_same, awaited_same]

omit [DecidableEq ι] in
theorem Inv.holder_unique (h : Inv b s W) (hi : s.place i = .holding) (hj : s.place j = .holding) :
    i = j := by
  classical
  by_contra hne
  have hle := Threads.add_le_total Place.holds s.place hne
  rw [hi, hj] at hle
  have hone := h.one
  have htwo : Place.holds .holding + Place.holds .holding = 2 := rfl
  omega

/-! ### Steps -/

theorem Fine.of_not_awaits {served drawn ticket : ℕ} (hp : p.awaits = 0) :
    Fine served drawn ticket p := by
  cases p with
  | waiting myTicket => cases hp
  | _ => trivial

theorem Fine.ticket {served drawn ticket : ℕ} (h : Fine served drawn ticket p)
    (hp : p.awaits = 1) : served ≤ ticket ∧ ticket < drawn := by
  cases p with
  | waiting myTicket => exact h.2
  | _ => cases hp

/-- A thread that awaits its ticket goes on to do so while it is not yet served. -/
theorem Fine.mono {served drawn ticket served' drawn' : ℕ} (h : Fine served drawn ticket p)
    (hserved : p.awaits = 1 → served' ≤ ticket) (hdrawn : drawn ≤ drawn') :
    Fine served' drawn' ticket p := by
  cases p with
  | waiting myTicket => exact ⟨h.1, hserved rfl, Nat.lt_of_lt_of_le h.2.2 hdrawn⟩
  | _ => trivial

/-- A thread goes from `q` to `p`, and does not wait there. -/
theorem Inv.change {s' : TicketLock ι} {W' : ℕ} (h : Inv b s W) (hq : s.place i = q)
    (hplace : s'.place = Function.update s.place i p) (hp : p.awaits = 0)
    (hticket : ∀ j, j ≠ i → s'.ticket j = s.ticket j)
    (hdrawn : b.drawn s'.value = s'.drawn % 2 ^ 16) (hawaited : b.awaited s'.value = W' % 2 ^ 16)
    (hholding : s'.served.length + W + q.holds = s.served.length + W' + p.holds)
    (hwaiting : s'.drawn + s.served.length + q.awaits = s.drawn + s'.served.length)
    (hle : s.drawn ≤ s'.drawn) (hone : p.holds = 0 ∨ Threads.total Place.holds s.place = 0)
    (hinOrder : s'.served = List.range s'.served.length)
    (hlate : ∀ j, j ≠ i → (s.place j).awaits = 1 → s'.served.length ≤ s.ticket j) :
    Inv b s' W' := by
  have hholds := Threads.total_move (w := Place.holds) (a := p) hq
  have hawaits := Threads.total_move (w := Place.awaits) (a := p) hq
  rw [← hplace] at hholds hawaits
  have hself : s'.place i = p := by rw [hplace, Function.update_self]
  have hother : ∀ j, j ≠ i → s'.place j = s.place j := by
    intro j hj
    rw [hplace, Function.update_of_ne hj]
  have hplaces : p.holds ≤ 1 := Nat.le_trans (Nat.le_add_right _ _) (holds_add_awaits_le p)
  have hbefore := h.holding
  have hbefore' := h.waiting
  have hbefore'' := h.one
  refine ⟨hdrawn, hawaited, by omega, by omega, by omega, hinOrder, ?_, ?_⟩
  · intro j
    by_cases hj : j = i
    · rw [hj, hself]
      exact Fine.of_not_awaits hp
    · rw [hother j hj, hticket j hj]
      exact (h.fine j).mono (hlate j hj) hle
  · intro j k hjk hawaitsj hawaitsk
    have hne : ∀ l, (s'.place l).awaits = 1 → l ≠ i := by
      intro l hl hli
      rw [hli, hself, hp] at hl
      cases hl
    have hj := hne j hawaitsj
    have hk := hne k hawaitsk
    rw [hother j hj] at hawaitsj
    rw [hother k hk] at hawaitsk
    rw [hticket j hj, hticket k hk]
    exact h.distinct j k hjk hawaitsj hawaitsk

omit [Fintype ι] [DecidableEq ι] in
/-- One more ticket is served, the next one. -/
theorem range_append {served : List ℕ} {k : ℕ} (h : served = List.range served.length)
    (hk : k = served.length) : served ++ [k] = List.range (served ++ [k]).length := by
  rw [List.length_append, List.length_singleton, List.range_succ, ← h, hk]

theorem Inv.tryAcquire (h : Inv b s W) (hi : s.place i = .idle) : Inv b (s.tryAcquire b i) W :=
  h.change hi rfl rfl (fun _ _ => rfl) h.drawn h.awaited rfl rfl (Nat.le_refl _) (.inl rfl)
    h.inOrder fun j _ hj => ((h.fine j).ticket hj).1

/-- A ticket is drawn. -/
theorem Inv.acquire (h : Inv b s W) (hi : s.place i = .idle) : Inv b (s.acquire b i) W := by
  have hholds := Threads.total_move (w := Place.holds) (a := .waiting (b.drawn s.value)) hi
  have hawaits := Threads.total_move (w := Place.awaits) (a := .waiting (b.drawn s.value)) hi
  have hholding := h.holding
  have hwaiting := h.waiting
  have hone := h.one
  have hzero : Place.holds (.waiting (b.drawn s.value)) = 0 ∧ Place.holds .idle = 0 ∧
      Place.awaits (.waiting (b.drawn s.value)) = 1 ∧ Place.awaits .idle = 0 := ⟨rfl, rfl, rfl, rfl⟩
  refine ⟨?_, ?_, ?_, ?_, ?_, h.inOrder, ?_, ?_⟩
  · show b.drawn (b.draw s.value) = (s.drawn + 1) % 2 ^ 16
    rw [drawn_draw, h.drawn, RwTicketLock.next16_mod]
  · show b.awaited (b.draw s.value) = W % 2 ^ 16
    rw [awaited_draw, h.awaited]
  · show s.served.length = W + Threads.total Place.holds (Function.update s.place i _)
    omega
  · show s.drawn + 1 = s.served.length + Threads.total Place.awaits (Function.update s.place i _)
    omega
  · show Threads.total Place.holds (Function.update s.place i _) ≤ 1
    omega
  · intro j
    show Fine s.served.length (s.drawn + 1) (Function.update s.ticket i s.drawn j)
      (Function.update s.place i (.waiting (b.drawn s.value)) j)
    by_cases hj : j = i
    · rw [hj, Function.update_self, Function.update_self, h.drawn]
      exact ⟨rfl, by omega, Nat.lt_succ_self _⟩
    · rw [Function.update_of_ne hj, Function.update_of_ne hj]
      exact (h.fine j).mono (fun hawaits => ((h.fine j).ticket hawaits).1) (Nat.le_succ _)
  · -- The tickets that are awaited were drawn before.
    have hnew : ∀ j, j ≠ i → (Function.update s.place i (.waiting (b.drawn s.value)) j).awaits = 1 →
        Function.update s.ticket i s.drawn j = s.ticket j ∧ (s.place j).awaits = 1 ∧
          s.ticket j < s.drawn := by
      intro j hj hawaits
      rw [Function.update_of_ne hj] at hawaits
      exact ⟨Function.update_of_ne hj _ _, hawaits, ((h.fine j).ticket hawaits).2⟩
    intro j k hjk hawaitsj hawaitsk
    show Function.update s.ticket i s.drawn j ≠ Function.update s.ticket i s.drawn k
    by_cases hj : j = i
    · obtain ⟨hk, -, hlt⟩ := hnew k (fun hk => hjk (hj.trans hk.symm)) hawaitsk
      rw [hj, Function.update_self, hk]
      exact Nat.ne_of_gt hlt
    · obtain ⟨htj, hj', hlt⟩ := hnew j hj hawaitsj
      by_cases hk : k = i
      · rw [hk, Function.update_self, htj]
        exact Nat.ne_of_lt hlt
      · obtain ⟨htk, hk', -⟩ := hnew k hk hawaitsk
        rw [htj, htk]
        exact h.distinct j k hjk hj' hk'

theorem Inv.release (h : Inv b s W) (hi : s.place i = .holding) :
    Inv b (s.release b i) (W + 1) := by
  refine h.change hi rfl rfl (fun _ _ => rfl) ?_ ?_ ?_ rfl (Nat.le_refl _) (.inl rfl) h.inOrder
    fun j _ hj => ((h.fine j).ticket hj).1
  · exact (drawn_pass s.value).trans h.drawn
  · show b.awaited (b.pass s.value) = (W + 1) % 2 ^ 16
    rw [awaited_pass, h.awaited, RwTicketLock.next16_mod]
  · exact Nat.add_assoc _ _ _

/-- The thread whose ticket has come is the next one. -/
theorem Inv.serve (h : Inv b s W) (hn : Fintype.card ι < 2 ^ 16) {myTicket : ℕ}
    (hi : s.place i = .waiting myTicket) (hserved : b.Served myTicket s.value) :
    Inv b { s.move i .holding with served := s.served ++ [s.ticket i] } W := by
  have hfine := h.fine i
  rw [hi] at hfine
  obtain ⟨rfl, hle, hlt⟩ := hfine
  have hsame := (served_iff h.awaited).mp hserved
  have hdrawn := h.drawn_le
  have hholding := h.holding
  have hticket : s.ticket i = s.served.length := by omega
  have hnone : Threads.total Place.holds s.place = 0 := by omega
  have hlength : (s.served ++ [s.ticket i]).length = s.served.length + 1 := by
    rw [List.length_append, List.length_singleton]
  refine h.change hi rfl rfl (fun _ _ => rfl) h.drawn h.awaited ?_ ?_ (Nat.le_refl _) (.inr hnone)
    (range_append h.inOrder hticket) ?_
  · show (s.served ++ [s.ticket i]).length + W + 0 = s.served.length + W + 1
    omega
  · show s.drawn + s.served.length + 1 = s.drawn + (s.served ++ [s.ticket i]).length
    omega
  · intro j hj hawaits
    show (s.served ++ [s.ticket i]).length ≤ s.ticket j
    have hother := ((h.fine j).ticket hawaits).1
    have hne := h.distinct j i hj hawaits (by rw [hi]; rfl)
    omega

theorem Inv.exchange (h : Inv b s W) (hn : Fintype.card ι < 2 ^ 16) {old : ℕ}
    (hi : s.place i = .trying old) (hfit : b = .outOfLine → s.value ≠ ⟨old, old⟩) :
    Inv b (s.exchange b i old) W := by
  unfold TicketLock.exchange
  split
  next heq =>
    cases b with
    | outOfLine => exact (hfit rfl heq).elim
    | inline =>
        have hfree := h.free_of_eq hn heq
        have hholding := h.holding
        have hwaiting := h.waiting
        have hnone : Threads.total Place.holds s.place = 0 := by omega
        have hlength : (s.served ++ [s.drawn]).length = s.served.length + 1 := by
          rw [List.length_append, List.length_singleton]
        have hold : s.value.head = old ∧ s.value.tail = old := by
          rw [heq]
          exact ⟨rfl, rfl⟩
        have hdrawn : s.value.head = s.drawn % 2 ^ 16 := h.drawn
        have hawaited : s.value.tail = W % 2 ^ 16 := h.awaited
        refine h.change hi rfl rfl (fun j hj => Function.update_of_ne hj _ _) ?_ ?_ ?_ ?_
          (Nat.le_succ _) (.inr hnone) (range_append h.inOrder (by omega)) ?_
        · show next16 old = (s.drawn + 1) % 2 ^ 16
          rw [← hold.1, hdrawn, RwTicketLock.next16_mod]
        · show old = W % 2 ^ 16
          rw [← hold.2, hawaited]
        · show (s.served ++ [s.drawn]).length + W + 0 = s.served.length + W + 1
          omega
        · show s.drawn + 1 + s.served.length + 0 = s.drawn + (s.served ++ [s.drawn]).length
          omega
        · intro j _ hawaits
          have hzero := (h.free_iff.mpr hfree j).2
          omega
  next hne =>
    exact h.change hi rfl rfl (fun _ _ => rfl) h.drawn h.awaited rfl rfl (Nat.le_refl _)
      (.inl rfl) h.inOrder fun j _ hj => ((h.fine j).ticket hj).1

theorem Inv.step (h : Inv b s W) (hn : Fintype.card ι < 2 ^ 16) (a : Action ι)
    (ha : s.Enabled a) (hfit : s.Fit b a) : ∃ W', Inv b (s.perform b a) W' := by
  cases a with
  | tryAcquire i => exact ⟨W, h.tryAcquire ha⟩
  | acquire i => exact ⟨W, h.acquire ha⟩
  | release i => exact ⟨W + 1, h.release ha⟩
  | advance i =>
      refine ⟨W, ?_⟩
      show Inv b (s.advance b i) W
      unfold TicketLock.advance
      split
      next => exact h
      next old hi => exact h.exchange hn hi fun hb => hfit hb old hi
      next myTicket hi =>
        split
        next hserved => exact h.serve hn hi hserved
        next => exact h
      next => exact h

/-! ## Runs -/

omit [DecidableEq ι] in
theorem inv_initial : Inv b (initial : TicketLock ι) 0 := by
  have hholds : Threads.total Place.holds (fun _ : ι => Place.idle) = 0 :=
    Threads.total_const _ rfl
  have hawaits : Threads.total Place.awaits (fun _ : ι => Place.idle) = 0 :=
    Threads.total_const _ rfl
  refine ⟨?_, ?_, ?_, ?_, ?_, rfl, fun _ => trivial, ?_⟩
  · cases b <;> rfl
  · cases b <;> rfl
  · show 0 = 0 + Threads.total Place.holds (fun _ : ι => Place.idle)
    rw [hholds]
  · show 0 = 0 + Threads.total Place.awaits (fun _ : ι => Place.idle)
    rw [hawaits]
  · show Threads.total Place.holds (fun _ : ι => Place.idle) ≤ 1
    rw [hholds]
    exact Nat.zero_le 1
  · intro i j _ hi
    cases hi

theorem Reachable.inv (hn : Fintype.card ι < 2 ^ 16) (h : Reachable b (Fit b) s) :
    ∃ W, Inv b s W := by
  induction h with
  | start => exact ⟨0, inv_initial⟩
  | step a _ ha hfit ih =>
      obtain ⟨W, hinv⟩ := ih
      exact hinv.step hn a ha hfit

omit [Fintype ι] in
theorem advance_trying {old : ℕ} (hi : s.place i = .trying old) :
    s.advance b i = s.exchange b i old := by
  unfold TicketLock.advance
  rw [hi]

theorem Inv.toSound (h : Inv b s W) (hn : Fintype.card ι < 2 ^ 16) : s.Sound b := by
  refine ⟨fun i j => h.holder_unique, h.inOrder, ?_, ?_, ?_⟩
  · intro i old hi hholding
    rw [advance_trying hi] at hholding
    unfold TicketLock.exchange at hholding
    split at hholding
    next heq => exact h.free_iff.mpr (h.free_of_eq hn heq)
    next =>
      have hidle : (s.move i .idle).place i = .idle := Function.update_self _ _ _
      rw [hidle] at hholding
      cases hholding
  · intro i old hi hnot
    rw [advance_trying hi] at hnot ⊢
    unfold TicketLock.exchange at hnot ⊢
    split
    next heq =>
      rw [if_pos heq] at hnot
      exact (hnot (Function.update_self _ _ _)).elim
    next => rfl
  · rw [check_iff, h.drawn_eq_awaited hn, h.free_iff]

/-- In the header's implementation every run is sound, and out of line every run in which no
`TryAcquire` succeeds. -/
theorem Reachable.serves_in_order (hn : Fintype.card ι < 2 ^ 16) (h : Reachable b (Fit b) s) :
    s.Sound b := by
  obtain ⟨W, hinv⟩ := h.inv hn
  exact hinv.toSound hn

theorem three_threads : Fintype.card (Fin 3) < 2 ^ 16 := by
  rw [Fintype.card_fin]
  norm_num

/-- Out of line one thread holds the lock and another one waits. -/
theorem Reachable.sound_outOfLine : ∃ s : TicketLock (Fin 3), s.place 0 = .holding ∧
    s.place 1 = .waiting 1 ∧ s.Sound .outOfLine := by
  have h : Reachable .outOfLine (Fit .outOfLine) (initial : TicketLock (Fin 3)) := .start
  have h := h.step (.acquire 0) rfl trivial
  have h := h.step (.advance 0) trivial fun _ _ heq => nomatch heq
  have h := h.step (.acquire 1) rfl trivial
  exact ⟨_, rfl, rfl, Reachable.serves_in_order three_threads h⟩

/-- Out of line `TryAcquire` moves the counter of the holders on: with one thread that waits the
lock looks free. -/
theorem Reachable.two_holders : ¬ ∀ b, ∀ s : TicketLock (Fin 3),
    Reachable b (fun _ _ => True) s → s.Sound b := by
  intro hclaim
  have h : Reachable .outOfLine (fun _ _ => True) (initial : TicketLock (Fin 3)) := .start
  have h := h.step (.tryAcquire 0) rfl trivial
  have h := h.step (.advance 0) trivial trivial
  have h := h.step (.acquire 1) rfl trivial
  have h := h.step (.tryAcquire 2) rfl trivial
  have h := h.step (.advance 2) trivial trivial
  have heq := (hclaim .outOfLine _ h).exclusive 0 2 rfl rfl
  exact absurd heq (by decide)

end TicketLock

end Beelzebub.Sync
