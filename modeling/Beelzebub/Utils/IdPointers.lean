import Beelzebub.Utils.IdPool
import Mathlib.Data.Nat.Bitwise

/-!
# The pointers of identifiers

The word of a held identifier tells its pointer, or that it has none.  `UnsetPointer` marks the
word as deallocated, and this mark is one that `Resolve` takes for a pointer.

Threads take their steps in any order; to release an identifier is up to its holder.
-/

namespace Beelzebub.Utils

namespace IdPool

/-! ## The code -/

def valueMask : Nat := 0xFFFFFFFFFFFFFFFE

/-- `Resolve`.  A null pointer is `0`. -/
def resolve (id : Nat) (pool : IdPool) : Nat :=
  if id ≥ pool.capacity then 0
  else
    let val := pool.entries id
    if val = unallocated ∨ val % 2 = 0 then 0 else val &&& valueMask

/-- The default constructor, and `Entries` with anything behind the null pointer. -/
def empty (entries : Nat → Nat) : IdPool where
  head := noNext
  tail := noNext
  entries := entries
  capacity := 0

namespace Machine

variable {τ : Type} [DecidableEq τ]

def empty (entries : Nat → Nat) : Machine τ where
  pool := .empty entries
  thread _ := .idle
  holder _ := none
  free := []

/-- A call of `UnsetPointer` that nobody disturbs: the result, what is in the variable for the
pointer, and the machine.  Nothing is stored in the variable. -/
def callUnset (x : τ) (id val : Nat) (m : Machine τ) : Bool × Nat × Machine τ :=
  match m.unsetPointer x id with
  | (some set, m) => (set, val, m)
  | (none, m') =>
      let (set, m') := m'.exchangeUnset x id (m.pool.entries id)
      (set, val, m')

end Machine

/-- A machine, and for the record the pointer of the current holding of each identifier. -/
structure Recorded (τ : Type) where
  machine : Machine τ
  given : Nat → Option Nat

inductive Action (τ : Type) where
  | acquire (x : τ)
  | acquireWith (x : τ) (val : Nat)
  | setPointer (x : τ) (id val : Nat)
  | unsetPointer (x : τ) (id : Nat)
  | exchangeUnset (x : τ) (id old : Nat)
  | release (x : τ) (id : Nat)
  | exchangeRelease (x : τ) (id old : Nat)
  | append (x : τ) (id : Nat)

namespace Recorded

variable {τ : Type} [DecidableEq τ]

/-- The identifier that `Acquire` has returned begins a holding. -/
def hand (val : Option Nat) (result : Nat × Machine τ) (r : Recorded τ) : Recorded τ where
  machine := result.2
  given := if result.1 = noNext then r.given else Function.update r.given result.1 val

/-- A call that has changed the word of an identifier changes the record. -/
def record (id : Nat) (val : Option Nat) (result : Bool × Machine τ) (r : Recorded τ) :
    Recorded τ where
  machine := result.2
  given := if result.1 then Function.update r.given id val else r.given

def perform (r : Recorded τ) : Action τ → Recorded τ
  | .acquire x => r.hand none (r.machine.acquire x unallocated)
  | .acquireWith x val => r.hand (some val) (r.machine.acquire x (pointer val))
  | .setPointer _ id val => r.record id (some val) (r.machine.setPointer id val)
  | .unsetPointer x id => { r with machine := (r.machine.unsetPointer x id).2 }
  | .exchangeUnset x id old => r.record id none (r.machine.exchangeUnset x id old)
  | .release x id => { r with machine := (r.machine.release x id).2 }
  | .exchangeRelease x id old =>
      let (result, machine) := r.machine.exchangeRelease x id old
      r.record id none (result.isNone, machine)
  | .append x id => { r with machine := r.machine.append x id }

/-- A pointer is a word, and only the holder of an identifier releases it. -/
def Enabled (r : Recorded τ) : Action τ → Prop
  | .acquire x => r.machine.thread x = .idle
  | .acquireWith x val => r.machine.thread x = .idle ∧ val < 2 ^ 64
  | .setPointer x _ val => r.machine.thread x = .idle ∧ val < 2 ^ 64
  | .unsetPointer x _ => r.machine.thread x = .idle
  | .exchangeUnset x id old => r.machine.thread x = .unsetting id old
  | .release x id => r.machine.thread x = .idle ∧ r.machine.Entitled x id
  | .exchangeRelease x id old => r.machine.thread x = .releasing id old
  | .append x id => r.machine.thread x = .appending id

inductive Run (storage : Nat → Nat) (cap : Nat) (kind : Recorded τ → Action τ → Prop) :
    Recorded τ → Prop
  | empty : cap = 0 → Run storage cap kind ⟨.empty storage, fun _ => none⟩
  | new : 1 ≤ cap → Run storage cap kind ⟨.new storage cap, fun _ => none⟩
  | step {r : Recorded τ} (a : Action τ) : Run storage cap kind r → r.Enabled a → kind r a →
      Run storage cap kind (r.perform a)

/-! ## What is asked -/

/-- Every identifier resolves to the pointer of its holding. -/
def Resolves (r : Recorded τ) : Prop :=
  ∀ id, r.machine.pool.resolve id = (r.given id).getD 0

/-- `UnsetPointer` returns true exactly if there is a pointer, stores it, and leaves none, so that
another call returns false. -/
def Unsets (r : Recorded τ) (x : τ) (id val : Nat) : Prop :=
  let (set, val', m) := r.machine.callUnset x id val
  (set = true ↔ r.machine.pool.resolve id ≠ 0) ∧
    (set = true → val' = r.machine.pool.resolve id) ∧
    m.pool.resolve id = 0 ∧ ∀ val, (m.callUnset x id val).1 = false

def Right (r : Recorded τ) : Action τ → Prop
  | .unsetPointer x id => ∀ val, r.Unsets x id val
  | a => (r.perform a).Resolves

/-! ## The condition -/

/-- `UnsetPointer` finds no pointer, and the pointers are even and not the last even word. -/
def Fit (r : Recorded τ) : Action τ → Prop
  | .acquireWith _ val => r.machine.pool.head ≠ noNext → val % 2 = 0 ∧ val ≠ 2 ^ 64 - 2
  | .setPointer _ id val => id < r.machine.pool.capacity →
      r.machine.pool.entries id = unallocated → val ≠ 2 ^ 64 - 2
  | .unsetPointer _ id => id < r.machine.pool.capacity →
      r.machine.pool.entries id = unallocated ∨ r.machine.pool.entries id % 2 = 0
  | _ => True

end Recorded

/-! ## Words -/

/-- A pointer that can be told from the marks. -/
structure Plain (val : Nat) : Prop where
  even : val % 2 = 0
  size : val < 2 ^ 64
  ne : val ≠ 2 ^ 64 - 2

/-- The word of a held identifier. -/
def word : Option Nat → Nat
  | none => unallocated
  | some val => pointer val

variable {id val cap : Nat} {given : Option Nat} {pool : IdPool}

theorem word_odd (given : Option Nat) : word given % 2 = 1 := by
  cases given with
  | none => rfl
  | some val => exact pointer_odd val

theorem masked_even (w : Nat) : (w &&& valueMask) % 2 = 0 := by
  have hbit : (w &&& valueMask).testBit 0 = false := by
    rw [Nat.testBit_and, show valueMask.testBit 0 = false from rfl, Bool.and_false]
  rw [Nat.testBit_zero] at hbit
  have hne := of_decide_eq_false hbit
  omega

/-- The mask takes the low bit away again. -/
theorem pointer_masked (heven : val % 2 = 0) (hsize : val < 2 ^ 64) :
    pointer val &&& valueMask = val := by
  refine Nat.eq_of_testBit_eq fun i => ?_
  unfold pointer
  rw [Nat.testBit_and, Nat.testBit_or]
  cases i with
  | zero =>
      have hzero : val.testBit 0 = false := by
        rw [Nat.testBit_zero, heven]
        rfl
      rw [hzero, show valueMask.testBit 0 = false from rfl, Bool.and_false]
  | succ i =>
      have hbusy : busyMask.testBit (i + 1) = false := by
        rw [Nat.testBit_succ]
        exact Nat.zero_testBit i
      have hmask : valueMask.testBit (i + 1) = decide (i < 63) := by
        rw [Nat.testBit_succ]
        exact Nat.testBit_two_pow_sub_one 63 i
      rw [hbusy, hmask, Bool.or_false]
      by_cases hi : i < 63
      · simp [hi]
      · have hzero : val.testBit (i + 1) = false := by
          refine Nat.testBit_lt_two_pow (Nat.lt_of_lt_of_le hsize ?_)
          exact Nat.pow_le_pow_right (by decide) (by omega)
        simp [hzero]

theorem Plain.ne_unallocated (h : Plain val) : pointer val ≠ unallocated := by
  intro heq
  have hval := pointer_masked h.even h.size
  rw [heq] at hval
  exact h.ne hval.symm

/-! ## What `Resolve` returns -/

theorem resolve_of_le (hid : pool.capacity ≤ id) : pool.resolve id = 0 := if_pos hid

theorem resolve_of_none (h : pool.entries id = unallocated ∨ pool.entries id % 2 = 0) :
    pool.resolve id = 0 := by
  unfold resolve
  split
  · rfl
  · exact if_pos h

theorem resolve_even (id : Nat) (pool : IdPool) : pool.resolve id % 2 = 0 := by
  unfold resolve
  split
  · rfl
  · dsimp only
    split
    · rfl
    · exact masked_even _

theorem resolve_word (hid : id < pool.capacity) (hword : pool.entries id = word given)
    (hplain : ∀ val, given = some val → Plain val) : pool.resolve id = given.getD 0 := by
  cases given with
  | none => exact resolve_of_none (.inl hword)
  | some val =>
      have hval := hplain val rfl
      unfold resolve
      rw [if_neg (Nat.not_le.mpr hid), hword]
      show (if pointer val = unallocated ∨ pointer val % 2 = 0 then 0
        else pointer val &&& valueMask) = val
      rw [if_neg, pointer_masked hval.even hval.size]
      rintro (heq | heq)
      · exact hval.ne_unallocated heq
      · rw [pointer_odd] at heq
        cases heq

theorem resolve_deallocated (hid : id < pool.capacity) (hword : pool.entries id = deallocated) :
    pool.resolve id = 2 ^ 64 - 4 := by
  unfold resolve
  rw [if_neg (Nat.not_le.mpr hid), hword]
  rfl

/-! ## The invariant -/

namespace Recorded

variable {τ : Type} [DecidableEq τ] {r : Recorded τ} {x u : τ} {old : Nat} {storage : Nat → Nat}

/-- The words agree with the record, and nobody is about to unset a pointer. -/
structure Inv (cap : Nat) (r : Recorded τ) : Prop where
  machine : r.machine.Inv cap
  word : ∀ id u, r.machine.holder id = some u →
    r.machine.pool.entries id = IdPool.word (r.given id)
  plain : ∀ id val, r.given id = some val → Plain val
  blank : ∀ id, r.machine.holder id = none → r.given id = none
  settled : ∀ x id old, r.machine.thread x ≠ .unsetting id old

omit [DecidableEq τ] in
theorem inv_empty (storage : Nat → Nat) : (⟨.empty storage, fun _ => none⟩ : Recorded τ).Inv 0 where
  machine :=
    { capacity := rfl
      nodup := .nil
      chained := trivial
      head := rfl
      tail := rfl
      free := nofun
      held := nofun
      appending := nofun
      once := nofun
      calls := fun _ _ _ h => by
        rcases h with h | h
        · cases h
        · cases h
      total := nofun }
  word := nofun
  plain := nofun
  blank := fun _ _ => rfl
  settled := nofun

omit [DecidableEq τ] in
theorem inv_new (hcap : 1 ≤ cap) (storage : Nat → Nat) :
    (⟨.new storage cap, fun _ => none⟩ : Recorded τ).Inv cap where
  machine := Machine.inv_new hcap storage
  word := nofun
  plain := nofun
  blank := fun _ _ => rfl
  settled := nofun

omit [DecidableEq τ] in
theorem Inv.toResolves (h : r.Inv cap) : r.Resolves := by
  intro id
  have hcap := h.machine.capacity
  cases hholder : r.machine.holder id with
  | some u =>
      have hid := (h.machine.held id u hholder).1
      exact resolve_word (hcap ▸ hid) (h.word id u hholder) (h.plain id)
  | none =>
      rw [h.blank id hholder]
      rcases Nat.lt_or_ge id cap with hid | hid
      · refine resolve_of_none (.inr ?_)
        rcases h.machine.total id hid with hfree | ⟨u, hu⟩ | ⟨u, hu⟩
        · exact h.machine.chained.even hfree
        · rw [hholder] at hu
          cases hu
        · rw [(h.machine.appending u id hu).2.2.2]
          rfl
      · exact resolve_of_le (hcap ▸ hid)

/-! ### One step -/

omit [DecidableEq τ] in
theorem Inv.free_ne (h : r.Inv cap) (hfit : cap * 8 ≤ 2 ^ 64) (hid : id ∈ r.machine.free) :
    id ≠ noNext := by
  have hlt := h.machine.lt_of_free hfit hid
  unfold noNext
  omega

omit [DecidableEq τ] in
/-- The head of the free identifiers is handed out. -/
theorem Inv.hand (h : r.Inv cap) (hfit : cap * 8 ≤ 2 ^ 64) (x : τ) {g : Option Nat}
    (hplain : r.machine.pool.head ≠ noNext → ∀ val, g = some val → Plain val) :
    (r.hand g (r.machine.acquire x (IdPool.word g))).Inv cap := by
  have hmachine := h.machine.acquire hfit x (word_odd g)
  have heq := h.machine.acquire_eq hfit x (IdPool.word g)
  cases hfree : r.machine.free with
  | nil =>
      rw [hfree] at heq
      rw [heq]
      exact h
  | cons id l =>
      rw [hfree] at heq
      rw [heq] at hmachine ⊢
      have hne := h.free_ne hfit (show id ∈ r.machine.free by simp [hfree])
      have hhead : r.machine.pool.head ≠ noNext := by
        rw [h.machine.head, hfree]
        exact hne
      have hgiven : ∀ m, (r.hand g (id, m)).given = Function.update r.given id g :=
        fun _ => if_neg hne
      refine ⟨hmachine, ?_, ?_, ?_, h.settled⟩
      · intro y u hu
        change Function.update r.machine.holder id (some x) y = some u at hu
        rw [hgiven]
        show Function.update r.machine.pool.entries id (IdPool.word g) y = _
        by_cases hy : y = id
        · rw [hy, Function.update_self, Function.update_self]
        · rw [Function.update_of_ne hy] at hu ⊢
          rw [Function.update_of_ne hy]
          exact h.word y u hu
      · intro y val hval
        rw [hgiven] at hval
        by_cases hy : y = id
        · rw [hy, Function.update_self] at hval
          exact hplain hhead val hval
        · rw [Function.update_of_ne hy] at hval
          exact h.plain y val hval
      · intro y hy
        change Function.update r.machine.holder id (some x) y = none at hy
        rw [hgiven]
        have hne : y ≠ id := by
          rintro rfl
          rw [Function.update_self] at hy
          cases hy
        rw [Function.update_of_ne hne] at hy ⊢
        exact h.blank y hy

omit [DecidableEq τ] in
/-- The word of a held identifier and its pointer change together. -/
theorem Inv.setEntry (h : r.Inv cap) (hheld : r.machine.holder id = some u) {g : Option Nat}
    (hplain : ∀ val, g = some val → Plain val) :
    Inv cap ⟨{ r.machine with pool := r.machine.pool.setEntry id (IdPool.word g) },
      Function.update r.given id g⟩ := by
  refine ⟨h.machine.setEntry hheld (word_odd g), ?_, ?_, ?_, h.settled⟩
  · intro y v hv
    show Function.update r.machine.pool.entries id _ y =
      IdPool.word (Function.update r.given id _ y)
    by_cases hy : y = id
    · rw [hy, Function.update_self, Function.update_self]
    · rw [Function.update_of_ne hy, Function.update_of_ne hy]
      exact h.word y v hv
  · intro y val hval
    change Function.update r.given id _ y = some val at hval
    by_cases hy : y = id
    · rw [hy, Function.update_self] at hval
      exact hplain val hval
    · rw [Function.update_of_ne hy] at hval
      exact h.plain y val hval
  · intro y hy
    show Function.update r.given id _ y = none
    have hne : y ≠ id := by
      rintro rfl
      rw [show r.machine.holder y = _ from hheld] at hy
      cases hy
    rw [Function.update_of_ne hne]
    exact h.blank y hy

omit [DecidableEq τ] in
theorem setPointer_set (hid : id < r.machine.pool.capacity) (heven : val % 2 = 0)
    (hword : r.machine.pool.entries id = unallocated) : r.machine.setPointer id val =
      (true, { r.machine with pool := r.machine.pool.setEntry id (pointer val) }) := by
  unfold Machine.setPointer IdPool.setPointer compareExchange
  rw [if_neg (by omega), if_pos hword]

omit [DecidableEq τ] in
theorem setPointer_refused (h : ¬ (id < r.machine.pool.capacity ∧ val % 2 = 0 ∧
    r.machine.pool.entries id = unallocated)) :
    r.machine.setPointer id val = (false, r.machine) := by
  unfold Machine.setPointer IdPool.setPointer compareExchange
  by_cases hrefused : id ≥ r.machine.pool.capacity ∨ val % 2 ≠ 0
  · rw [if_pos hrefused]
  · rw [if_neg hrefused, if_neg fun hword => h ⟨by omega, by omega, hword⟩]

omit [DecidableEq τ] in
theorem Inv.setPointer (h : r.Inv cap) (hsize : val < 2 ^ 64)
    (hne : id < r.machine.pool.capacity → r.machine.pool.entries id = unallocated →
      val ≠ 2 ^ 64 - 2) : (r.record id (some val) (r.machine.setPointer id val)).Inv cap := by
  by_cases hset : id < r.machine.pool.capacity ∧ val % 2 = 0 ∧
      r.machine.pool.entries id = unallocated
  · obtain ⟨hid, heven, hword⟩ := hset
    have hodd : r.machine.pool.entries id % 2 ≠ 0 := by
      rw [hword]
      decide
    obtain ⟨u, hheld⟩ := h.machine.held_of_odd (h.machine.capacity ▸ hid) hodd
    rw [setPointer_set hid heven hword]
    refine h.setEntry hheld (g := some val) fun v hv => ?_
    cases hv
    exact ⟨heven, hsize, hne hid hword⟩
  · rw [setPointer_refused hset]
    exact h

/-- A call of `UnsetPointer` that finds no pointer ends at the load. -/
theorem unsetPointer_of_fit (hfit : r.Fit (.unsetPointer x id)) :
    r.machine.unsetPointer x id = (some false, r.machine) := by
  unfold Machine.unsetPointer
  by_cases hid : id ≥ r.machine.pool.capacity
  · rw [if_pos hid]
  · rw [if_neg hid]
    exact if_pos (hfit (Nat.not_le.mp hid))

theorem Inv.release (h : r.Inv cap) (hx : r.machine.thread x = .idle)
    (hent : r.machine.Entitled x id) : (r.perform (.release x id)).Inv cap := by
  have hmachine := h.machine.release hx hent
  have hthread : ∀ y id' old, (r.machine.release x id).2.thread y ≠ .unsetting id' old := by
    intro y id' old
    unfold Machine.release
    split
    · exact h.settled y id' old
    · dsimp only
      split
      · exact h.settled y id' old
      · by_cases hy : y = x
        · rw [hy, Machine.setThread_self]
          nofun
        · rw [Machine.setThread_of_ne _ hy]
          exact h.settled y id' old
  have hsame : (r.machine.release x id).2.pool = r.machine.pool ∧
      (r.machine.release x id).2.holder = r.machine.holder := by
    unfold Machine.release
    split
    · exact ⟨rfl, rfl⟩
    · dsimp only
      split
      · exact ⟨rfl, rfl⟩
      · exact ⟨rfl, rfl⟩
  refine ⟨hmachine, ?_, h.plain, ?_, hthread⟩
  · intro y u hu
    show (r.machine.release x id).2.pool.entries y = _
    rw [hsame.1]
    exact h.word y u (hsame.2 ▸ hu)
  · intro y hy
    exact h.blank y (hsame.2 ▸ hy)

theorem Inv.exchangeRelease (h : r.Inv cap) (hx : r.machine.thread x = .releasing id old) :
    (r.perform (.exchangeRelease x id old)).Inv cap := by
  have hmachine := h.machine.exchangeRelease hx
  have hthread : ∀ (m : Machine τ) (l : Local), m.thread = r.machine.thread →
      (∀ id' old', l ≠ .unsetting id' old') →
      ∀ y id' old', (m.setThread x l).thread y ≠ .unsetting id' old' := by
    intro m l hm hl y id' old'
    by_cases hy : y = x
    · rw [hy, Machine.setThread_self]
      exact hl id' old'
    · rw [Machine.setThread_of_ne _ hy, hm]
      exact h.settled y id' old'
  by_cases hword : r.machine.pool.entries id = old
  swap
  · have hcall : r.machine.exchangeRelease x id old =
        (some false, r.machine.setThread x .idle) := by
      unfold Machine.exchangeRelease compareExchange
      rw [if_neg hword]
    rw [hcall] at hmachine
    show Inv cap (r.record id none ((r.machine.exchangeRelease x id old).1.isNone,
      (r.machine.exchangeRelease x id old).2))
    rw [hcall]
    exact ⟨hmachine, h.word, h.plain, h.blank, hthread _ _ rfl nofun⟩
  have hcall : r.machine.exchangeRelease x id old =
      (none, { r.machine with
        pool := r.machine.pool.setEntry id noNext
        holder := Function.update r.machine.holder id none }.setThread x (.appending id)) := by
    unfold Machine.exchangeRelease compareExchange
    rw [if_pos hword]
  rw [hcall] at hmachine
  show Inv cap (r.record id none ((r.machine.exchangeRelease x id old).1.isNone,
    (r.machine.exchangeRelease x id old).2))
  rw [hcall]
  have hne : ∀ y u, Function.update r.machine.holder id none y = some u →
      y ≠ id ∧ r.machine.holder y = some u := by
    intro y u hu
    by_cases hy : y = id
    · rw [hy, Function.update_self] at hu
      cases hu
    · rw [Function.update_of_ne hy] at hu
      exact ⟨hy, hu⟩
  refine ⟨hmachine, ?_, ?_, ?_, hthread _ _ rfl nofun⟩
  · intro y u hu
    obtain ⟨hy, hu⟩ := hne y u hu
    show Function.update r.machine.pool.entries id noNext y =
      IdPool.word (Function.update r.given id none y)
    rw [Function.update_of_ne hy, Function.update_of_ne hy]
    exact h.word y u hu
  · intro y val hval
    change Function.update r.given id none y = some val at hval
    by_cases hy : y = id
    · rw [hy, Function.update_self] at hval
      cases hval
    · rw [Function.update_of_ne hy] at hval
      exact h.plain y val hval
  · intro y hy
    change Function.update r.machine.holder id none y = none at hy
    show Function.update r.given id none y = none
    by_cases hyid : y = id
    · rw [hyid, Function.update_self]
    · rw [Function.update_of_ne hyid] at hy ⊢
      exact h.blank y hy

theorem Inv.append (h : r.Inv cap) (hfit : cap * 8 ≤ 2 ^ 64)
    (hx : r.machine.thread x = .appending id) : (r.perform (.append x id)).Inv cap := by
  obtain ⟨-, -, -, hentries⟩ := h.machine.chained_append hfit hx
  refine ⟨h.machine.append hfit hx, ?_, h.plain, h.blank, ?_⟩
  · intro y u hu
    have hout : y ∉ r.machine.free := by
      intro hmem
      have hnone := (h.machine.free y hmem).2
      rw [show r.machine.holder y = some u from hu] at hnone
      cases hnone
    exact (hentries y hout).trans (h.word y u hu)
  · intro y id' old
    show (Machine.setThread x .idle _).thread y ≠ _
    by_cases hy : y = x
    · rw [hy, Machine.setThread_self]
      nofun
    · rw [Machine.setThread_of_ne _ hy]
      exact h.settled y id' old

theorem Inv.perform (h : r.Inv cap) (hfit : cap * 8 ≤ 2 ^ 64) {a : Action τ} (ha : r.Enabled a)
    (hok : r.Fit a) : (r.perform a).Inv cap := by
  cases a with
  | acquire x => exact h.hand hfit x (g := none) nofun
  | acquireWith x val =>
      refine h.hand hfit x (g := some val) fun hhead v hv => ?_
      cases hv
      exact ⟨(hok hhead).1, ha.2, (hok hhead).2⟩
  | setPointer x id val => exact h.setPointer ha.2 hok
  | unsetPointer x id =>
      show Inv cap { r with machine := (r.machine.unsetPointer x id).2 }
      rw [unsetPointer_of_fit hok]
      exact h
  | exchangeUnset x id old => exact absurd ha (h.settled x id old)
  | release x id => exact h.release ha.1 ha.2
  | exchangeRelease x id old => exact h.exchangeRelease ha
  | append x id => exact h.append hfit ha

theorem Run.inv (hfit : cap * 8 ≤ 2 ^ 64) (h : Run storage cap Fit r) : r.Inv cap := by
  induction h with
  | empty hcap =>
      subst hcap
      exact inv_empty storage
  | new hcap => exact inv_new hcap storage
  | step a _ ha hok ih => exact ih.perform hfit ha hok

/-! ### When a step is right -/

theorem unsets_of_fit (hresolve : r.machine.pool.resolve id = 0)
    (hfit : r.Fit (.unsetPointer x id)) (val : Nat) : r.Unsets x id val := by
  have hcall : ∀ val, r.machine.callUnset x id val = (false, val, r.machine) := by
    intro val
    unfold Machine.callUnset
    rw [unsetPointer_of_fit hfit]
  unfold Unsets
  rw [hcall val]
  refine ⟨?_, nofun, hresolve, fun val' => ?_⟩
  · rw [hresolve]
    simp
  · rw [hcall val']

/-- Undisturbed, the call takes the word of a pointer and leaves its mark. -/
theorem fit_of_unsets (h : r.Unsets x id 0) : r.Fit (.unsetPointer x id) := by
  intro hid
  by_contra hword
  have hload : r.machine.unsetPointer x id =
      (none, r.machine.setThread x (.unsetting id (r.machine.pool.entries id))) := by
    unfold Machine.unsetPointer
    rw [if_neg (Nat.not_le.mpr hid)]
    exact if_neg hword
  have hcall : (r.machine.callUnset x id 0).2.2.pool = r.machine.pool.setEntry id deallocated := by
    unfold Machine.callUnset
    rw [hload]
    show (compareExchange id (r.machine.pool.entries id) deallocated r.machine.pool).2 = _
    unfold compareExchange
    rw [if_pos rfl]
  have hnull : (r.machine.callUnset x id 0).2.2.pool.resolve id = 0 := h.2.2.1
  have hmark : (r.machine.pool.setEntry id deallocated).resolve id = 2 ^ 64 - 4 :=
    resolve_deallocated hid (Function.update_self ..)
  rw [hcall, hmark] at hnull
  cases hnull

theorem Inv.fit_of_hand (h : r.Inv cap) (hfit : cap * 8 ≤ 2 ^ 64)
    (hright : (r.perform (.acquireWith x val)).Resolves) : r.Fit (.acquireWith x val) := by
  intro hhead
  have heq := h.machine.acquire_eq hfit x (pointer val)
  cases hfree : r.machine.free with
  | nil =>
      rw [h.machine.head, hfree] at hhead
      exact absurd rfl hhead
  | cons id l =>
      rw [hfree] at heq
      have hne := h.free_ne hfit (show id ∈ r.machine.free by simp [hfree])
      have hval := hright id
      change (r.hand (some val) (r.machine.acquire x (pointer val))).machine.pool.resolve id =
        ((r.hand (some val) (r.machine.acquire x (pointer val))).given id).getD 0 at hval
      have hgiven : ∀ m,
          (r.hand (some val) (id, m)).given = Function.update r.given id (some val) :=
        fun _ => if_neg hne
      rw [heq, hgiven, Function.update_self] at hval
      constructor
      · rw [← show _ = val from hval]
        exact resolve_even ..
      · rintro rfl
        rw [resolve_of_none] at hval
        · cases hval
        · exact .inl (Function.update_self ..)

omit [DecidableEq τ] in
theorem fit_of_setPointer
    (hright : (r.record id (some val) (r.machine.setPointer id val)).Resolves)
    (hid : id < r.machine.pool.capacity) (hword : r.machine.pool.entries id = unallocated) :
    val ≠ 2 ^ 64 - 2 := by
  rintro rfl
  rw [setPointer_set hid rfl hword] at hright
  have hval := hright id
  have hgiven : ∀ m, (r.record id (some (2 ^ 64 - 2)) (true, m)).given =
      Function.update r.given id (some (2 ^ 64 - 2)) := fun _ => rfl
  rw [resolve_of_none] at hval
  · rw [hgiven, Function.update_self] at hval
    cases hval
  · exact .inl (Function.update_self ..)

/-- In a run whose steps meet the condition every identifier resolves to the pointer of its
holding; and then a step is right if and only if it meets the condition. -/
theorem Run.resolves (hfit : cap * 8 ≤ 2 ^ 64) (h : Run storage cap Fit r) :
    r.Resolves ∧ ∀ a, r.Enabled a → (r.Right a ↔ r.Fit a) := by
  have hinv := h.inv hfit
  refine ⟨hinv.toResolves, fun a ha => ?_⟩
  have hafter : r.Fit a → (r.perform a).Resolves := fun hok =>
    (hinv.perform hfit ha hok).toResolves
  cases a with
  | acquireWith x val => exact ⟨hinv.fit_of_hand hfit, hafter⟩
  | setPointer x id val => exact ⟨fit_of_setPointer, hafter⟩
  | unsetPointer x id =>
      constructor
      · exact fun hright => fit_of_unsets (hright 0)
      · intro hok
        refine unsets_of_fit ?_ hok
        rcases Nat.lt_or_ge id r.machine.pool.capacity with hid | hid
        · exact resolve_of_none (hok hid)
        · exact resolve_of_le hid
  | acquire x => exact ⟨fun _ => trivial, hafter⟩
  | exchangeUnset x id old => exact ⟨fun _ => trivial, hafter⟩
  | release x id => exact ⟨fun _ => trivial, hafter⟩
  | exchangeRelease x id old => exact ⟨fun _ => trivial, hafter⟩
  | append x id => exact ⟨fun _ => trivial, hafter⟩

/-- One identifier, which is acquired with a pointer. -/
def acquired : Recorded Unit :=
  perform ⟨.new (fun _ => 0) 1, fun _ => none⟩ (.acquireWith () 4096)

theorem Run.resolves_acquired : acquired.given 0 = some 4096 ∧ acquired.Resolves ∧
    ∀ a, acquired.Enabled a → (acquired.Right a ↔ acquired.Fit a) := by
  have h : Run (fun _ => 0) 1 Fit (⟨.new (fun _ => 0) 1, fun _ => none⟩ : Recorded Unit) :=
    .new (Nat.le_refl 1)
  have h := h.step (.acquireWith () 4096) ⟨rfl, by decide⟩ fun _ => by decide
  exact ⟨rfl, Run.resolves (by decide) h⟩

/-- The pointer of the one identifier is unset, and the mark stays. -/
theorem not_resolves : ¬ ∀ r : Recorded Unit, Run (fun _ => 0) 1 (fun _ _ => True) r →
    r.Resolves := by
  intro hall
  have h : Run (fun _ => 0) 1 (fun _ _ => True)
      (⟨.new (fun _ => 0) 1, fun _ => none⟩ : Recorded Unit) := .new (Nat.le_refl 1)
  have h := h.step (.acquireWith () 4096) ⟨rfl, by decide⟩ trivial
  have h := h.step (.unsetPointer () 0) rfl trivial
  have h := h.step (.exchangeUnset () 0 4097) rfl trivial
  have hmark := hall _ h 0
  exact absurd hmark (by decide +kernel)

end Recorded

end IdPool

end Beelzebub.Utils
