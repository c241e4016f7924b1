import Beelzebub.Lib.Word
import Mathlib.Data.List.Nodup
import Mathlib.Logic.Function.Basic

/-!
# The pool of identifiers

The entry of an identifier is one word.  While the identifier is free the word is even and
holds the next free one, or `noNext` at the tail; while it is held the word is odd and holds
a pointer or one of two marks.  `Acquire` takes the head under the lock.  `Release` first
takes the word from its holder, by a compare-exchange outside the lock, and then appends the
identifier under the lock; between the two it belongs to the call.
-/

namespace Beelzebub.Utils

structure IdPool where
  head : Nat
  tail : Nat
  entries : Nat → Nat
  capacity : Nat

namespace IdPool

/-! ## The code -/

def busyMask : Nat := 1
def noNext : Nat := 0xFFFFFFFFFFFFFFFE
def unallocated : Nat := 0xFFFFFFFFFFFFFFFF
def deallocated : Nat := 0xFFFFFFFFFFFFFFFD

/-- `id << ValueShift`. -/
def shift (id : Nat) : Nat := id * 2 % 2 ^ 64

/-- The constructor, on storage with any contents. -/
def new (storage : Nat → Nat) (cap : Nat) : IdPool where
  head := 0
  tail := cap - 1
  entries i :=
    if i < cap - 1 then shift (i + 1) else if i = cap - 1 then noNext else storage i
  capacity := cap

def setEntry (id word : Nat) (pool : IdPool) : IdPool :=
  { pool with entries := Function.update pool.entries id word }

/-- `Acquire`, with the word that marks the identifier as held. -/
def acquire (word : Nat) (pool : IdPool) : Nat × IdPool :=
  let head := pool.head
  if head ≠ noNext then
    let pool :=
      if pool.entries head = noNext then { pool with head := noNext, tail := noNext }
      else { pool with head := pool.entries head / 2 }
    (head, pool.setEntry head word)
  else (head, pool)

/-- The word for a pointer. -/
def pointer (val : Nat) : Nat := val ||| busyMask

def compareExchange (id old new : Nat) (pool : IdPool) : Bool × IdPool :=
  if pool.entries id = old then (true, pool.setEntry id new) else (false, pool)

def setPointer (id val : Nat) (pool : IdPool) : Bool × IdPool :=
  if id ≥ pool.capacity ∨ val % 2 ≠ 0 then (false, pool)
  else pool.compareExchange id unallocated (pointer val)

/-- The locked part of `Release`. -/
def append (id : Nat) (pool : IdPool) : IdPool :=
  if pool.tail = noNext then { pool with head := id, tail := id }
  else { pool.setEntry pool.tail (shift id) with tail := id }

/-! ## Threads -/

/-- Where a thread is: outside, between the load and the exchange of `UnsetPointer` or
`Release`, or before the locked part of `Release`. -/
inductive Local where
  | idle
  | unsetting (id old : Nat)
  | releasing (id old : Nat)
  | appending (id : Nat)

/-- The pool and its threads.  Who holds an identifier, and in which order the free ones
were appended, is only for the record. -/
structure Machine (τ : Type) where
  pool : IdPool
  thread : τ → Local
  holder : Nat → Option τ
  free : List Nat

namespace Machine

variable {τ : Type} [DecidableEq τ]

def new (storage : Nat → Nat) (cap : Nat) : Machine τ where
  pool := .new storage cap
  thread _ := .idle
  holder _ := none
  free := List.range cap

def setThread (x : τ) (l : Local) (m : Machine τ) : Machine τ :=
  { m with thread := Function.update m.thread x l }

def acquire (x : τ) (word : Nat) (m : Machine τ) : Nat × Machine τ :=
  let (id, pool) := m.pool.acquire word
  (id, { m with
    pool
    holder := if id = noNext then m.holder else Function.update m.holder id (some x)
    free := m.free.tail })

def setPointer (id val : Nat) (m : Machine τ) : Bool × Machine τ :=
  let (set, pool) := m.pool.setPointer id val
  (set, { m with pool })

/-- `UnsetPointer` up to the load; the result if it ends there. -/
def unsetPointer (x : τ) (id : Nat) (m : Machine τ) : Option Bool × Machine τ :=
  if id ≥ m.pool.capacity then (some false, m)
  else
    let old := m.pool.entries id
    if old = unallocated ∨ old % 2 = 0 then (some false, m)
    else (none, m.setThread x (.unsetting id old))

def exchangeUnset (x : τ) (id old : Nat) (m : Machine τ) : Bool × Machine τ :=
  let (set, pool) := m.pool.compareExchange id old deallocated
  (set, { m with pool }.setThread x .idle)

/-- `Release` up to the load; the result if it ends there. -/
def release (x : τ) (id : Nat) (m : Machine τ) : Option Bool × Machine τ :=
  if id ≥ m.pool.capacity then (some false, m)
  else
    let old := m.pool.entries id
    if old % 2 = 0 then (some false, m)
    else (none, m.setThread x (.releasing id old))

def exchangeRelease (x : τ) (id old : Nat) (m : Machine τ) : Option Bool × Machine τ :=
  match m.pool.compareExchange id old noNext with
  | (false, pool) => (some false, { m with pool }.setThread x .idle)
  | (true, pool) =>
      (none, { m with pool, holder := Function.update m.holder id none }.setThread x
        (.appending id))

def append (x : τ) (id : Nat) (m : Machine τ) : Machine τ :=
  { m with pool := m.pool.append id, free := m.free ++ [id] }.setThread x .idle

/-- The thread may call for this identifier: nobody else holds it. -/
def Entitled (m : Machine τ) (x : τ) (id : Nat) : Prop := ∀ y, m.holder id = some y → y = x

/-- One atomic step of a thread. -/
inductive Step (m : Machine τ) : Machine τ → Prop
  | acquire (x : τ) : m.thread x = .idle → Step m (m.acquire x unallocated).2
  | acquireWith (x : τ) (val : Nat) : m.thread x = .idle → val % 2 = 0 →
      Step m (m.acquire x (pointer val)).2
  | setPointer (x : τ) (id val : Nat) : m.thread x = .idle → m.Entitled x id →
      Step m (m.setPointer id val).2
  | unsetPointer (x : τ) (id : Nat) : m.thread x = .idle → m.Entitled x id →
      Step m (m.unsetPointer x id).2
  | exchangeUnset (x : τ) (id old : Nat) : m.thread x = .unsetting id old →
      Step m (m.exchangeUnset x id old).2
  | release (x : τ) (id : Nat) : m.thread x = .idle → m.Entitled x id →
      Step m (m.release x id).2
  | exchangeRelease (x : τ) (id old : Nat) : m.thread x = .releasing id old →
      Step m (m.exchangeRelease x id old).2
  | append (x : τ) (id : Nat) : m.thread x = .appending id → Step m (m.append x id)

/-- The states that a pool of some capacity can be in. -/
inductive Reachable (storage : Nat → Nat) (cap : Nat) : Machine τ → Prop
  | new : Reachable storage cap (.new storage cap)
  | step {m m' : Machine τ} : Reachable storage cap m → Step m m' → Reachable storage cap m'

end Machine

/-! ## The chain -/

/-- The words of a chain: each but the last holds the next identifier. -/
def Chained (entries : Nat → Nat) : List Nat → Prop
  | [] => True
  | [x] => entries x = noNext
  | x :: y :: l => entries x = shift y ∧ Chained entries (y :: l)

variable {entries entries' : Nat → Nat} {l : List Nat} {x y id cap : Nat}

theorem Chained.congr (h : Chained entries l) (heq : ∀ x ∈ l, entries' x = entries x) :
    Chained entries' l := by
  induction l with
  | nil => trivial
  | cons x l ih =>
      cases l with
      | nil => exact (heq x (by simp)).trans h
      | cons y l =>
          exact ⟨(heq x (by simp)).trans h.1, ih h.2 fun z hz => heq z (by simp [hz])⟩

theorem Chained.even (h : Chained entries l) (hx : x ∈ l) : entries x % 2 = 0 := by
  induction l with
  | nil => cases hx
  | cons y l ih =>
      cases l with
      | nil =>
          obtain rfl := List.mem_singleton.mp hx
          rw [show entries x = noNext from h]
          rfl
      | cons z l =>
          rcases List.mem_cons.mp hx with rfl | hx
          · rw [h.1, shift]
            omega
          · exact ih h.2 hx

theorem Chained.tail (h : Chained entries (x :: l)) : Chained entries l := by
  cases l with
  | nil => trivial
  | cons y l => exact h.2

/-- An identifier is linked behind the last one. -/
theorem Chained.append (h : Chained entries (l ++ [y])) (hnodup : (l ++ [y]).Nodup)
    (hid : id ∉ l ++ [y]) (hlast : entries id = noNext) :
    Chained (Function.update entries y (shift id)) (l ++ [y] ++ [id]) := by
  induction l with
  | nil =>
      refine ⟨Function.update_self .., ?_⟩
      show Function.update entries y (shift id) id = noNext
      rw [Function.update_of_ne, hlast]
      rintro rfl
      exact hid (by simp)
  | cons x l ih =>
      rw [List.cons_append, List.nodup_cons] at hnodup
      have hx : x ≠ y := by
        rintro rfl
        exact hnodup.1 (by simp)
      have hrest := ih h.tail hnodup.2 fun hmem => hid (by simp [hmem])
      cases l with
      | nil =>
          refine ⟨?_, hrest⟩
          rw [Function.update_of_ne hx]
          exact h.1
      | cons z l =>
          refine ⟨?_, hrest⟩
          rw [Function.update_of_ne hx]
          exact h.1

theorem shift_ne_noNext (h : id < 2 ^ 61) : shift id ≠ noNext := by
  unfold shift noNext
  omega

theorem shift_half (h : id < 2 ^ 61) : shift id / 2 = id := by
  unfold shift
  omega

/-- `NoNext` stands only at the end. -/
theorem Chained.last_iff (h : Chained entries l) (hnodup : l.Nodup) (hlt : ∀ y ∈ l, y < 2 ^ 61)
    (hx : x ∈ l) : entries x = noNext ↔ l.getLast? = some x := by
  induction l with
  | nil => cases hx
  | cons y l ih =>
      cases l with
      | nil =>
          obtain rfl := List.mem_singleton.mp hx
          exact ⟨fun _ => rfl, fun _ => h⟩
      | cons z l =>
          rw [List.nodup_cons] at hnodup
          rw [List.getLast?_cons_cons]
          rcases List.mem_cons.mp hx with rfl | hx
          · constructor
            · intro hlast
              have hz := hlt z (by simp)
              rw [h.1] at hlast
              exact absurd hlast (shift_ne_noNext hz)
            · intro hlast
              exact absurd (List.mem_of_getLast? hlast) hnodup.1
          · exact ih h.2 hnodup.2 (fun w hw => hlt w (List.mem_cons_of_mem _ hw)) hx

theorem pointer_odd (val : Nat) : pointer val % 2 = 1 := by
  have hbit : (val ||| 1).testBit 0 = true := by simp
  rw [Nat.testBit_zero] at hbit
  exact of_decide_eq_true hbit

/-! ## The invariant -/

namespace Machine

variable {τ : Type} [DecidableEq τ] {m m' : Machine τ} {u v : τ} {old word : Nat}

theorem setThread_self (m : Machine τ) {l : Local} : (m.setThread u l).thread u = l :=
  Function.update_self ..

theorem setThread_of_ne (m : Machine τ) {l : Local} (h : v ≠ u) :
    (m.setThread u l).thread v = m.thread v :=
  Function.update_of_ne h ..

/-- Every identifier is at one place. -/
structure Inv (cap : Nat) (m : Machine τ) : Prop where
  capacity : m.pool.capacity = cap
  nodup : m.free.Nodup
  chained : Chained m.pool.entries m.free
  head : m.pool.head = m.free.head?.getD noNext
  tail : m.pool.tail = m.free.getLast?.getD noNext
  free : ∀ id ∈ m.free, id < cap ∧ m.holder id = none
  held : ∀ id u, m.holder id = some u → id < cap ∧ m.pool.entries id % 2 = 1
  appending : ∀ u id, m.thread u = .appending id →
    id < cap ∧ m.holder id = none ∧ id ∉ m.free ∧ m.pool.entries id = noNext
  once : ∀ u v id, m.thread u = .appending id → m.thread v = .appending id → u = v
  /-- A call that has loaded the word is one of the holder. -/
  calls : ∀ u id old, m.thread u = .unsetting id old ∨ m.thread u = .releasing id old →
    m.holder id = some u ∧ old % 2 = 1
  total : ∀ id < cap, id ∈ m.free ∨ (∃ u, m.holder id = some u) ∨ ∃ u, m.thread u = .appending id

omit [DecidableEq τ] in
/-- The word is odd exactly while the identifier is held. -/
theorem Inv.held_of_odd (h : m.Inv cap) (hid : id < cap) (hodd : m.pool.entries id % 2 ≠ 0) :
    ∃ u, m.holder id = some u := by
  rcases h.total id hid with hfree | hheld | ⟨u, happ⟩
  · exact absurd (h.chained.even hfree) hodd
  · exact hheld
  · rw [(h.appending u id happ).2.2.2] at hodd
    exact absurd rfl hodd

omit [DecidableEq τ] in
theorem inv_new (hcap : 1 ≤ cap) (storage : Nat → Nat) :
    (Machine.new storage cap : Machine τ).Inv cap := by
  have hentries : ∀ i n, i + n = cap → 1 ≤ n →
      Chained (IdPool.new storage cap).entries (List.range' i n) := by
    intro i n hin hn
    induction n generalizing i with
    | zero => cases hn
    | succ n ih =>
        rw [List.range'_succ]
        cases n with
        | zero =>
            show (if i < cap - 1 then _ else if i = cap - 1 then noNext else _) = noNext
            rw [if_neg (by omega), if_pos (by omega)]
        | succ n =>
            refine ⟨?_, ih (i + 1) (by omega) (by omega)⟩
            show (if i < cap - 1 then shift (i + 1) else _) = shift (i + 1)
            rw [if_pos (by omega)]
  have hrange : List.range cap = List.range' 0 cap := List.range_eq_range'
  obtain ⟨n, rfl⟩ := Nat.exists_eq_add_of_le hcap
  refine ⟨rfl, List.nodup_range, ?_, ?_, ?_, ?_, nofun, nofun, nofun, ?_, ?_⟩
  · show Chained _ (List.range (1 + n))
    rw [hrange]
    exact hentries 0 (1 + n) (by omega) (by omega)
  · show 0 = (List.range (1 + n)).head?.getD noNext
    rw [Nat.add_comm, List.range_succ_eq_map]
    rfl
  · show 1 + n - 1 = (List.range (1 + n)).getLast?.getD noNext
    rw [Nat.add_comm, List.range_succ, List.getLast?_append]
    simp
  · intro id hid
    exact ⟨List.mem_range.mp hid, rfl⟩
  · rintro u id old (h | h)
    · cases h
    · cases h
  · intro id hid
    exact Or.inl (List.mem_range.mpr hid)

omit [DecidableEq τ] in
/-- The word of a held identifier is exchanged for another odd one. -/
theorem Inv.setEntry (h : m.Inv cap) (hheld : m.holder id = some u) (hodd : word % 2 = 1) :
    Inv cap { m with pool := m.pool.setEntry id word } := by
  have hne : ∀ x, m.holder x = none → x ≠ id := by
    rintro x hx rfl
    rw [hheld] at hx
    cases hx
  have hother : ∀ x, m.holder x = none →
      (m.pool.setEntry id word).entries x = m.pool.entries x := fun x hx =>
    Function.update_of_ne (hne x hx) _ _
  refine ⟨h.capacity, h.nodup, ?_, h.head, h.tail, h.free, ?_, ?_, h.once, h.calls, h.total⟩
  · exact h.chained.congr fun x hx => hother x (h.free x hx).2
  · intro x v hx
    refine ⟨(h.held x v hx).1, ?_⟩
    by_cases hxid : x = id
    · subst hxid
      show Function.update m.pool.entries x word x % 2 = 1
      rw [Function.update_self, hodd]
    · show Function.update m.pool.entries id word x % 2 = 1
      rw [Function.update_of_ne hxid]
      exact (h.held x v hx).2
  · intro v x hv
    obtain ⟨h1, h2, h3, h4⟩ := h.appending v x hv
    exact ⟨h1, h2, h3, (hother x h2).trans h4⟩

/-- A thread that appends nothing goes elsewhere. -/
theorem Inv.setThread (h : m.Inv cap) (hu : ∀ id, m.thread u ≠ .appending id) (l : Local)
    (hl : ∀ id, l ≠ .appending id)
    (hcalls : ∀ id old, l = .unsetting id old ∨ l = .releasing id old →
      m.holder id = some u ∧ old % 2 = 1) : (m.setThread u l).Inv cap := by
  have hsame : ∀ v id, (m.setThread u l).thread v = .appending id → m.thread v = .appending id := by
    intro v id hv
    by_cases hvu : v = u
    · subst hvu
      rw [m.setThread_self] at hv
      exact absurd hv (hl id)
    · rw [m.setThread_of_ne hvu] at hv
      exact hv
  refine ⟨h.capacity, h.nodup, h.chained, h.head, h.tail, h.free, h.held, ?_, ?_, ?_, ?_⟩
  · exact fun v id hv => h.appending v id (hsame v id hv)
  · exact fun v v' id hv hv' => h.once v v' id (hsame v id hv) (hsame v' id hv')
  · intro v id old hv
    by_cases hvu : v = u
    · subst hvu
      rw [m.setThread_self] at hv
      exact hcalls id old hv
    · rw [m.setThread_of_ne hvu] at hv
      exact h.calls v id old hv
  · intro id hid
    rcases h.total id hid with hfree | hheld | ⟨v, hv⟩
    · exact Or.inl hfree
    · exact Or.inr (Or.inl hheld)
    · refine Or.inr (Or.inr ⟨v, ?_⟩)
      have hvu : v ≠ u := by
        rintro rfl
        exact hu id hv
      rw [m.setThread_of_ne hvu]
      exact hv

theorem Inv.idle (h : m.Inv cap) (hu : ∀ id, m.thread u ≠ .appending id) :
    (m.setThread u .idle).Inv cap := by
  refine h.setThread hu _ nofun ?_
  rintro id old (hl | hl)
  · cases hl
  · cases hl

omit [DecidableEq τ] in
/-- An exchange by the holder leaves an odd word. -/
theorem Inv.compareExchange (h : m.Inv cap) (hheld : m.holder id = some u) (hodd : word % 2 = 1) :
    Inv cap { m with pool := (m.pool.compareExchange id old word).2 } := by
  unfold IdPool.compareExchange
  split
  · exact h.setEntry hheld hodd
  · exact h

omit [DecidableEq τ] in
theorem Inv.setPointer (h : m.Inv cap) (id val : Nat) : (m.setPointer id val).2.Inv cap := by
  show Inv cap { m with pool := (m.pool.setPointer id val).2 }
  unfold IdPool.setPointer
  split
  · exact h
  rename_i hid
  rw [not_or, Nat.not_le, h.capacity] at hid
  by_cases hword : m.pool.entries id = unallocated
  · obtain ⟨u, hheld⟩ := h.held_of_odd hid.1 (by rw [hword]; decide)
    exact h.compareExchange hheld (pointer_odd val)
  · rw [IdPool.compareExchange, if_neg hword]
    exact h

omit [DecidableEq τ] in
/-- The call of a thread goes on only if the thread is the holder. -/
theorem Inv.holder_of_entitled (h : m.Inv cap) (hent : m.Entitled u id) (hid : id < cap)
    (hodd : m.pool.entries id % 2 ≠ 0) : m.holder id = some u := by
  obtain ⟨v, hv⟩ := h.held_of_odd hid hodd
  rw [hv, hent v hv]

theorem Inv.unsetPointer (h : m.Inv cap) (hidle : m.thread u = .idle) (hent : m.Entitled u id) :
    (m.unsetPointer u id).2.Inv cap := by
  unfold Machine.unsetPointer
  split
  · exact h
  rename_i hid
  rw [h.capacity, ge_iff_le, Nat.not_le] at hid
  show Inv cap (ite _ _ _ : Option Bool × Machine τ).2
  split
  · exact h
  rename_i hword
  rw [not_or] at hword
  refine h.setThread (by simp [hidle]) _ nofun ?_
  rintro id' old' (heq | heq)
  · cases heq
    exact ⟨h.holder_of_entitled hent hid hword.2, by omega⟩
  · cases heq

theorem Inv.release (h : m.Inv cap) (hidle : m.thread u = .idle) (hent : m.Entitled u id) :
    (m.release u id).2.Inv cap := by
  unfold Machine.release
  split
  · exact h
  rename_i hid
  rw [h.capacity, ge_iff_le, Nat.not_le] at hid
  show Inv cap (ite _ _ _ : Option Bool × Machine τ).2
  split
  · exact h
  rename_i hword
  refine h.setThread (by simp [hidle]) _ nofun ?_
  rintro id' old' (heq | heq)
  · cases heq
  · cases heq
    exact ⟨h.holder_of_entitled hent hid hword, by omega⟩

theorem Inv.exchangeUnset (h : m.Inv cap) (hu : m.thread u = .unsetting id old) :
    (m.exchangeUnset u id old).2.Inv cap := by
  have hheld := (h.calls u id old (Or.inl hu)).1
  have hmid : Inv cap { m with pool := (m.pool.compareExchange id old deallocated).2 } :=
    h.compareExchange hheld rfl
  exact hmid.idle (by simp [hu])

/-- The holder gives the identifier up. -/
theorem Inv.exchangeRelease (h : m.Inv cap) (hu : m.thread u = .releasing id old) :
    (m.exchangeRelease u id old).2.Inv cap := by
  obtain ⟨hheld, hodd⟩ := h.calls u id old (Or.inr hu)
  unfold Machine.exchangeRelease IdPool.compareExchange
  by_cases hword : m.pool.entries id = old
  swap
  · rw [if_neg hword]
    exact h.idle (by simp [hu])
  rw [if_pos hword]
  have hid := (h.held id u hheld).1
  have hfree : id ∉ m.free := by
    intro hmem
    rw [(h.free id hmem).2] at hheld
    cases hheld
  have hother : ∀ x, x ≠ id → (m.pool.setEntry id noNext).entries x = m.pool.entries x :=
    fun x hx => Function.update_of_ne hx ..
  have hholder : ∀ x v, Function.update m.holder id none x = some v →
      x ≠ id ∧ m.holder x = some v := by
    intro x v hx
    by_cases hxid : x = id
    · rw [hxid, Function.update_self] at hx
      cases hx
    · rw [Function.update_of_ne hxid] at hx
      exact ⟨hxid, hx⟩
  have happend : ∀ v x, (m.setThread u (.appending id)).thread v = .appending x →
      v = u ∧ x = id ∨ v ≠ u ∧ x ≠ id ∧ m.thread v = .appending x := by
    intro v x hv
    by_cases hvu : v = u
    · subst hvu
      rw [m.setThread_self] at hv
      cases hv
      exact Or.inl ⟨rfl, rfl⟩
    · rw [m.setThread_of_ne hvu] at hv
      refine Or.inr ⟨hvu, ?_, hv⟩
      rintro rfl
      rw [(h.appending v x hv).2.1] at hheld
      cases hheld
  refine ⟨h.capacity, h.nodup, ?_, h.head, h.tail, ?_, ?_, ?_, ?_, ?_, ?_⟩
  · refine h.chained.congr fun x hx => hother x ?_
    rintro rfl
    exact hfree hx
  · intro x hx
    refine ⟨(h.free x hx).1, ?_⟩
    show Function.update m.holder id none x = none
    by_cases hxid : x = id
    · rw [hxid, Function.update_self]
    · rw [Function.update_of_ne hxid, (h.free x hx).2]
  · intro x v hx
    obtain ⟨hxid, hx⟩ := hholder x v hx
    obtain ⟨h1, h2⟩ := h.held x v hx
    exact ⟨h1, (congrArg (· % 2) (hother x hxid)).trans h2⟩
  · intro v x hv
    rcases happend v x hv with ⟨-, rfl⟩ | ⟨-, hxid, hv⟩
    · exact ⟨hid, Function.update_self .., hfree, Function.update_self ..⟩
    · obtain ⟨h1, h2, h3, h4⟩ := h.appending v x hv
      exact ⟨h1, (Function.update_of_ne hxid ..).trans h2, h3, (hother x hxid).trans h4⟩
  · intro v v' x hv hv'
    rcases happend v x hv with ⟨rfl, rfl⟩ | ⟨-, hxid, hv⟩
    · rcases happend v' x hv' with ⟨rfl, -⟩ | ⟨-, hxid, -⟩
      · rfl
      · exact absurd rfl hxid
    · rcases happend v' x hv' with ⟨-, rfl⟩ | ⟨-, -, hv'⟩
      · exact absurd rfl hxid
      · exact h.once v v' x hv hv'
  · intro v x old' hv
    change (m.setThread u (.appending id)).thread v = _ ∨
      (m.setThread u (.appending id)).thread v = _ at hv
    have hvu : v ≠ u := by
      rintro rfl
      rw [m.setThread_self] at hv
      rcases hv with hv | hv
      · cases hv
      · cases hv
    rw [m.setThread_of_ne hvu] at hv
    obtain ⟨h1, h2⟩ := h.calls v x old' hv
    have hxid : x ≠ id := by
      rintro rfl
      rw [hheld] at h1
      cases h1
      exact hvu rfl
    exact ⟨(Function.update_of_ne hxid ..).trans h1, h2⟩
  · intro x hx
    by_cases hxid : x = id
    · subst hxid
      exact Or.inr (Or.inr ⟨u, m.setThread_self⟩)
    rcases h.total x hx with hmem | ⟨v, hv⟩ | ⟨v, hv⟩
    · exact Or.inl hmem
    · exact Or.inr (Or.inl ⟨v, (Function.update_of_ne hxid ..).trans hv⟩)
    · have hvu : v ≠ u := by
        rintro rfl
        rw [hu] at hv
        cases hv
      exact Or.inr (Or.inr ⟨v, (m.setThread_of_ne hvu).trans hv⟩)

omit [DecidableEq τ] in
theorem Inv.lt_of_free (h : m.Inv cap) (hfit : cap * 8 ≤ 2 ^ 64) (hid : id ∈ m.free) :
    id < 2 ^ 61 := by
  have hlt := (h.free id hid).1
  omega

omit [DecidableEq τ] in
/-- `Acquire` takes the first free identifier, or reports that there is none. -/
theorem Inv.acquire_eq (h : m.Inv cap) (hfit : cap * 8 ≤ 2 ^ 64) (u : τ) (word : Nat) :
    m.acquire u word =
      match m.free with
      | [] => (noNext, m)
      | id :: l =>
          (id, { m with
            pool := { m.pool with
              head := l.head?.getD noNext
              tail := l.getLast?.getD noNext
              entries := Function.update m.pool.entries id word }
            holder := Function.update m.holder id (some u)
            free := l }) := by
  obtain ⟨⟨head, tail, entries, capacity⟩, thread, holder, free⟩ := m
  have hhead : head = free.head?.getD noNext := h.head
  have htail : tail = free.getLast?.getD noNext := h.tail
  cases free with
  | nil =>
      subst hhead htail
      rfl
  | cons id l =>
      obtain rfl : head = id := hhead
      have hid : head ≠ noNext := by
        have hlt := h.lt_of_free hfit List.mem_cons_self
        unfold noNext
        omega
      unfold Machine.acquire IdPool.acquire
      simp only [ne_eq, hid, not_false_eq_true, if_true, if_false]
      cases l with
      | nil =>
          have hlast : entries head = noNext := h.chained
          simp only [hlast, if_true]
          rfl
      | cons y l =>
          have hnext : entries head = shift y := h.chained.1
          have hy : y < 2 ^ 61 := h.lt_of_free hfit (List.mem_cons_of_mem _ List.mem_cons_self)
          simp only [hnext, shift_ne_noNext hy, shift_half hy, if_false]
          rw [htail, List.getLast?_cons_cons]
          rfl

omit [DecidableEq τ] in
theorem Inv.acquire (h : m.Inv cap) (hfit : cap * 8 ≤ 2 ^ 64) (u : τ) (hodd : word % 2 = 1) :
    (m.acquire u word).2.Inv cap := by
  rw [h.acquire_eq hfit]
  split
  · exact h
  rename_i id l hfree
  have hid := h.free id (by simp [hfree])
  have hnodup := h.nodup
  rw [hfree, List.nodup_cons] at hnodup
  have hchained := h.chained
  rw [hfree] at hchained
  have hne : ∀ x ∈ l, x ≠ id := by
    rintro x hx rfl
    exact hnodup.1 hx
  have happend : ∀ v x, m.thread v = .appending x → x ≠ id := by
    rintro v x hv rfl
    exact (h.appending v x hv).2.2.1 (by simp [hfree])
  refine ⟨h.capacity, hnodup.2, ?_, rfl, rfl, ?_, ?_, ?_, h.once, ?_, ?_⟩
  · exact hchained.tail.congr fun x hx => Function.update_of_ne (hne x hx) ..
  · intro x hx
    obtain ⟨h1, h2⟩ := h.free x (by rw [hfree]; exact List.mem_cons_of_mem _ hx)
    exact ⟨h1, (Function.update_of_ne (hne x hx) ..).trans h2⟩
  · intro x v hx
    change Function.update m.holder id (some u) x = some v at hx
    show x < cap ∧ Function.update m.pool.entries id word x % 2 = 1
    by_cases hxid : x = id
    · rw [hxid, Function.update_self]
      exact ⟨hid.1, hodd⟩
    · rw [Function.update_of_ne hxid] at hx ⊢
      exact h.held x v hx
  · intro v x hv
    obtain ⟨h1, h2, h3, h4⟩ := h.appending v x hv
    have hxid := happend v x hv
    refine ⟨h1, (Function.update_of_ne hxid ..).trans h2, ?_,
      (Function.update_of_ne hxid ..).trans h4⟩
    intro hx
    exact h3 (by rw [hfree]; exact List.mem_cons_of_mem _ hx)
  · intro v x old hv
    obtain ⟨h1, h2⟩ := h.calls v x old hv
    have hxid : x ≠ id := by
      rintro rfl
      rw [hid.2] at h1
      cases h1
    exact ⟨(Function.update_of_ne hxid ..).trans h1, h2⟩
  · intro x hx
    by_cases hxid : x = id
    · subst hxid
      exact Or.inr (Or.inl ⟨u, Function.update_self ..⟩)
    rcases h.total x hx with hmem | ⟨v, hv⟩ | hv
    · rw [hfree, List.mem_cons] at hmem
      exact Or.inl (hmem.resolve_left hxid)
    · exact Or.inr (Or.inl ⟨v, (Function.update_of_ne hxid ..).trans hv⟩)
    · exact Or.inr (Or.inr hv)

omit [DecidableEq τ] in
/-- The locked part of `Release` links the identifier behind the tail. -/
theorem Inv.chained_append (h : m.Inv cap) (hfit : cap * 8 ≤ 2 ^ 64)
    (hu : m.thread u = .appending id) :
    Chained (m.pool.append id).entries (m.free ++ [id]) ∧
      (m.pool.append id).head = (m.free ++ [id]).head?.getD noNext ∧
      (m.pool.append id).tail = id ∧
      ∀ x, x ∉ m.free → (m.pool.append id).entries x = m.pool.entries x := by
  obtain ⟨-, -, hfree, hword⟩ := h.appending u id hu
  rcases List.eq_nil_or_concat m.free with hnil | ⟨l, y, hlast⟩
  · have htail : m.pool.tail = noNext := by
      rw [h.tail, hnil]
      rfl
    rw [IdPool.append, if_pos htail, hnil]
    exact ⟨hword, rfl, rfl, fun _ _ => rfl⟩
  · rw [List.concat_eq_append] at hlast
    have htail : m.pool.tail = y := by
      rw [h.tail, hlast, List.getLast?_append]
      rfl
    have hy : m.pool.tail ≠ noNext := by
      have hlt := h.lt_of_free hfit (show y ∈ m.free by simp [hlast])
      rw [htail]
      unfold noNext
      omega
    rw [IdPool.append, if_neg hy, htail]
    have hchained := h.chained
    have hnodup := h.nodup
    rw [hlast] at hchained hnodup hfree
    rw [hlast]
    refine ⟨hchained.append hnodup hfree hword, ?_, rfl, ?_⟩
    · show m.pool.head = _
      rw [h.head, hlast]
      cases l with
      | nil => rfl
      | cons z l => rfl
    · intro x hx
      refine Function.update_of_ne ?_ ..
      rintro rfl
      exact hx (by simp)

theorem Inv.append (h : m.Inv cap) (hfit : cap * 8 ≤ 2 ^ 64) (hu : m.thread u = .appending id) :
    (m.append u id).Inv cap := by
  obtain ⟨hid, hholder, hfree, hword⟩ := h.appending u id hu
  obtain ⟨hchained, hhead, htail, hentries⟩ := h.chained_append hfit hu
  have happend : ∀ v x, (m.append u id).thread v = .appending x →
      v ≠ u ∧ m.thread v = .appending x := by
    intro v x hv
    change (m.setThread u .idle).thread v = _ at hv
    by_cases hvu : v = u
    · subst hvu
      rw [m.setThread_self] at hv
      cases hv
    · rw [m.setThread_of_ne hvu] at hv
      exact ⟨hvu, hv⟩
  refine ⟨?_, ?_, hchained, hhead, ?_, ?_, ?_, ?_, ?_, ?_, ?_⟩
  · show (m.pool.append id).capacity = cap
    unfold IdPool.append
    split
    · exact h.capacity
    · exact h.capacity
  · show (m.free ++ [id]).Nodup
    rw [List.nodup_append_comm, List.singleton_append, List.nodup_cons]
    exact ⟨hfree, h.nodup⟩
  · show (m.pool.append id).tail = (m.free ++ [id]).getLast?.getD noNext
    rw [htail, List.getLast?_append]
    rfl
  · intro x hx
    rcases List.mem_append.mp hx with hx | hx
    · exact h.free x hx
    · rw [List.mem_singleton.mp hx]
      exact ⟨hid, hholder⟩
  · intro x v hx
    obtain ⟨h1, h2⟩ := h.held x v hx
    refine ⟨h1, ?_⟩
    show (m.pool.append id).entries x % 2 = 1
    rw [hentries x, h2]
    intro hmem
    have hnone := (h.free x hmem).2
    rw [show m.holder x = some v from hx] at hnone
    cases hnone
  · intro v x hv
    obtain ⟨hvu, hv⟩ := happend v x hv
    obtain ⟨h1, h2, h3, h4⟩ := h.appending v x hv
    refine ⟨h1, h2, ?_, (hentries x h3).trans h4⟩
    intro hx
    rcases List.mem_append.mp hx with hx | hx
    · exact h3 hx
    · rw [List.mem_singleton.mp hx] at hv
      exact hvu (h.once v u id hv hu)
  · intro v v' x hv hv'
    exact h.once v v' x (happend v x hv).2 (happend v' x hv').2
  · intro v x old hv
    change (m.setThread u .idle).thread v = _ ∨ (m.setThread u .idle).thread v = _ at hv
    have hvu : v ≠ u := by
      rintro rfl
      rw [m.setThread_self] at hv
      rcases hv with hv | hv
      · cases hv
      · cases hv
    rw [m.setThread_of_ne hvu] at hv
    exact h.calls v x old hv
  · intro x hx
    by_cases hxid : x = id
    · exact Or.inl (List.mem_append.mpr (Or.inr (List.mem_singleton.mpr hxid)))
    rcases h.total x hx with hmem | hheld | ⟨v, hv⟩
    · exact Or.inl (List.mem_append.mpr (Or.inl hmem))
    · exact Or.inr (Or.inl hheld)
    · have hvu : v ≠ u := by
        rintro rfl
        rw [hu] at hv
        cases hv
        exact hxid rfl
      exact Or.inr (Or.inr ⟨v, (m.setThread_of_ne hvu).trans hv⟩)

/-! ## Runs -/

theorem Step.inv (hs : Step m m') (h : m.Inv cap) (hfit : cap * 8 ≤ 2 ^ 64) : m'.Inv cap := by
  cases hs with
  | acquire u _ => exact h.acquire hfit u rfl
  | acquireWith u val _ _ => exact h.acquire hfit u (pointer_odd val)
  | setPointer u id val _ _ => exact h.setPointer id val
  | unsetPointer u id hidle hent => exact h.unsetPointer hidle hent
  | exchangeUnset u id old hu => exact h.exchangeUnset hu
  | release u id hidle hent => exact h.release hidle hent
  | exchangeRelease u id old hu => exact h.exchangeRelease hu
  | append u id hu => exact h.append hfit hu

theorem Reachable.inv {storage : Nat → Nat} (hm : Reachable storage cap m) (hcap : 1 ≤ cap)
    (hfit : cap * 8 ≤ 2 ^ 64) : m.Inv cap := by
  induction hm with
  | new => exact inv_new hcap storage
  | step _ hs ih => exact hs.inv ih hfit

/-- Where an identifier can be. -/
inductive Place (τ : Type) where
  | held (holder : τ)
  | transit (caller : τ)
  | free

def At (m : Machine τ) (id : Nat) : Place τ → Prop
  | .held u => m.holder id = some u
  | .transit u => m.thread u = .appending id
  | .free => id ∈ m.free

omit [DecidableEq τ] in
theorem Inv.place (h : m.Inv cap) (hid : id < cap) : ∃! p, m.At id p := by
  rcases h.total id hid with hfree | ⟨u, hu⟩ | ⟨u, hu⟩
  · refine ⟨.free, hfree, ?_⟩
    intro p hp
    cases p with
    | held v =>
        have hnone := (h.free id hfree).2
        rw [show m.holder id = some v from hp] at hnone
        cases hnone
    | transit v => exact absurd hfree (h.appending v id hp).2.2.1
    | free => rfl
  · refine ⟨.held u, hu, ?_⟩
    intro p hp
    cases p with
    | held v =>
        have heq : some u = some v := hu.symm.trans hp
        cases heq
        rfl
    | transit v =>
        have hnone := (h.appending v id hp).2.1
        rw [hu] at hnone
        cases hnone
    | free =>
        have hnone := (h.free id hp).2
        rw [hu] at hnone
        cases hnone
  · obtain ⟨-, hnone, hfree, -⟩ := h.appending u id hu
    refine ⟨.transit u, hu, ?_⟩
    intro p hp
    cases p with
    | held v =>
        rw [show m.holder id = some v from hp] at hnone
        cases hnone
    | transit v => rw [h.once v u id hp hu]
    | free => exact absurd hp hfree

theorem Inv.release_of_free (h : m.Inv cap) (u : τ) (hnone : m.holder id = none) :
    m.release u id = (some false, m) := by
  unfold Machine.release
  split
  · rfl
  rename_i hid
  rw [h.capacity, ge_iff_le, Nat.not_le] at hid
  have heven : m.pool.entries id % 2 = 0 := by
    by_contra hodd
    obtain ⟨v, hv⟩ := h.held_of_odd hid hodd
    rw [hnone] at hv
    cases hv
  exact if_pos heven

/-- The pool neither loses an identifier nor has it at two places, and hands the free ones
out in the order in which they came. -/
theorem Reachable.conserves {storage : Nat → Nat} (hm : Reachable storage cap m) (hcap : 1 ≤ cap)
    (hfit : cap * 8 ≤ 2 ^ 64) :
    (∀ id < cap, ∃! p, m.At id p) ∧
      (m.free.Nodup ∧ Chained m.pool.entries m.free ∧
        m.pool.head = m.free.head?.getD noNext ∧ m.pool.tail = m.free.getLast?.getD noNext ∧
        ∀ id ∈ m.free, m.pool.entries id = noNext ↔ id = m.pool.tail) ∧
      (∀ u word, (m.acquire u word).1 = m.free.head?.getD noNext ∧
        ((m.acquire u word).1 = noNext → m.free = [])) ∧
      ∀ u id, m.holder id = none → m.release u id = (some false, m) := by
  have h := hm.inv hcap hfit
  refine ⟨fun id hid => h.place hid, ⟨h.nodup, h.chained, h.head, h.tail, ?_⟩, ?_, ?_⟩
  · intro id hid
    rw [h.chained.last_iff h.nodup (fun y hy => h.lt_of_free hfit hy) hid, h.tail]
    cases hlast : m.free.getLast? with
    | none =>
        rw [List.getLast?_eq_none_iff.mp hlast] at hid
        cases hid
    | some y =>
        rw [Option.some_inj, Option.getD_some]
        exact eq_comm
  · intro u word
    rw [h.acquire_eq hfit]
    cases hfree : m.free with
    | nil => exact ⟨rfl, fun _ => rfl⟩
    | cons id l =>
        refine ⟨rfl, ?_⟩
        intro hnone
        have hid := h.lt_of_free hfit (show id ∈ m.free by simp [hfree])
        change id = noNext at hnone
        rw [hnone] at hid
        exact absurd hid (by decide)
  · intro u id hnone
    exact h.release_of_free u hnone

/-- A pool of one identifier, which its one thread acquires. -/
theorem Reachable.conserves_one :
    (1 ≤ 1 ∧ 1 * 8 ≤ 2 ^ 64) ∧
      ∃! p, ((Machine.new (fun _ => 0) 1 : Machine Unit).acquire () unallocated).2.At 0 p :=
  ⟨by decide, (Reachable.conserves (.step .new (.acquire () rfl)) (by decide) (by decide)).1 0
    (by decide)⟩

end Machine

end IdPool

end Beelzebub.Utils
