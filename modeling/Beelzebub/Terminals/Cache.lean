import Beelzebub.Handles
import Beelzebub.Utils.Strings
import Mathlib.Algebra.BigOperators.Group.List.Basic
import Mathlib.Data.List.GetD

/-!
# The cache terminal

`CacheTerminal` keeps what is written to it in a chain of pools.  A text that does not fit goes on
in the next pool, in the last one once it is enlarged, or in a new one.
-/

namespace Beelzebub.Cache

open Strings

/-! ## The code -/

/-- A pool with its characters.  The ranges that were mapped for it, from the pool on and by their
sizes, are only for the record. -/
structure CharPool where
  size : ℕ
  capacity : ℕ
  data : ℕ → UInt8
  ranges : List (ℕ × ℕ)

/-- The functions that a terminal is made with: for a minimum size, a new pool or an enlarged one. -/
structure CharPoolFuncs where
  acquirePool : ℕ → Except HandleResult CharPool
  enlargePool : ℕ → CharPool → Except HandleResult CharPool

structure Counters where
  capacity : UInt64
  count : UInt64
  freeCount : UInt64

/-- The terminal, with the chain from `FirstPool` on. -/
structure CacheTerminal where
  pools : List CharPool
  counters : Counters

def CharPool.hasRoom (pool : CharPool) : Bool := pool.size < pool.capacity

def CharPool.copyCnt (pool : CharPool) (left : List UInt8) : ℕ :=
  min (pool.capacity - pool.size) left.length

/-- The pool after the copy. -/
def CharPool.copyInto (pool : CharPool) (left : List UInt8) : CharPool :=
  { pool with
    size := pool.size + pool.copyCnt left
    data := fun i =>
      if pool.size ≤ i ∧ i < pool.size + pool.copyCnt left then left.getD (i - pool.size) 0
      else pool.data i }

def Counters.copied (c : Counters) (copyCnt : ℕ) : Counters :=
  { c with
    count := c.count + UInt64.ofNat copyCnt
    freeCount := c.freeCount - UInt64.ofNat copyCnt }

def Counters.enlarged (c : Counters) (capacityDiff : ℕ) : Counters :=
  { c with
    capacity := c.capacity + UInt64.ofNat capacityDiff
    freeCount := c.freeCount + UInt64.ofNat capacityDiff }

/-- What a write has done so far: the chain, what is left of the text, and the counters. -/
structure Progress where
  pools : List CharPool
  left : List UInt8
  counters : Counters

/-- `copyIntoPool`, from one pool on through the pools that follow it. -/
def copyIntoPool : List CharPool → List UInt8 → Counters → Progress
  | [], left, c => ⟨[], left, c⟩
  | pool :: next, left, c =>
      if (left.drop (pool.copyCnt left)).length > 0 ∧ next ≠ [] then
        let rest := copyIntoPool next (left.drop (pool.copyCnt left))
          (c.copied (pool.copyCnt left))
        { rest with pools := pool.copyInto left :: rest.pools }
      else
        ⟨pool.copyInto left :: next, left.drop (pool.copyCnt left), c.copied (pool.copyCnt left)⟩

/-- The last pool enlarged, where there is one and this succeeds, and the new counters. -/
def enlargeLast (f : CharPoolFuncs) (pools : List CharPool) (left : List UInt8) (c : Counters) :
    Option (CharPool × Counters) :=
  match pools.getLast? with
  | none => none
  | some last =>
      match f.enlargePool left.length last with
      | .error _ => none
      | .ok last' => some (last', c.enlarged ((last'.capacity + 2 ^ 32 - last.capacity) % 2 ^ 32))

/-- What follows when no pool has room for what is left, for so many rounds at most. -/
def grow (f : CharPoolFuncs) : ℕ → Progress → Option (HandleResult × Progress)
  | rounds, p =>
      if p.left = [] then some (.okay, p)
      else
        match rounds with
        | 0 => none
        | rounds + 1 =>
            match enlargeLast f p.pools p.left p.counters with
            | some (last, c) =>
                let rest := copyIntoPool [last] p.left c
                grow f rounds { rest with pools := p.pools.dropLast ++ rest.pools }
            | none =>
                match f.acquirePool p.left.length with
                | .error res => some (res, p)
                | .ok pool =>
                    let rest := copyIntoPool [pool] p.left p.counters
                    grow f rounds { rest with pools := p.pools ++ rest.pools }

/-- The result, the number of characters that it reports, and the terminal. -/
def internalWrite (f : CharPoolFuncs) (term : CacheTerminal) (str : CString) (inLen : ℕ) :
    Option (HandleResult × UInt32 × CacheTerminal) :=
  let text := str.chars.take inLen
  if text.length = 0 then some (.okay, 0, term)
  else
    let full := term.pools.takeWhile fun pool => !pool.hasRoom
    let rest := copyIntoPool (term.pools.dropWhile fun pool => !pool.hasRoom) text term.counters
    match grow f text.length { rest with pools := full ++ rest.pools } with
    | none => none
    | some (res, p) =>
        some (res, UInt32.ofNat (text.length - p.left.length), ⟨p.pools, p.counters⟩)

def CharPool.clear (pool : CharPool) : CharPool :=
  { pool with size := 0, data := fun i => if i < pool.size then 0 else pool.data i }

def clear (term : CacheTerminal) : CacheTerminal :=
  { term with pools := term.pools.map CharPool.clear }

/-! ## Runs -/

def CharPool.chars (pool : CharPool) : List UInt8 := (List.range pool.size).map pool.data

/-- The characters of a chain, in order. -/
def held (pools : List CharPool) : List UInt8 := pools.flatMap CharPool.chars

def capacities (pools : List CharPool) : ℕ := (pools.map CharPool.capacity).sum

def sizes (pools : List CharPool) : ℕ := (pools.map CharPool.size).sum

/-- What was reported as written since the last `Clear`, and whether no write has stored `2 ^ 32`
characters or more, are only for the record. -/
structure State where
  term : CacheTerminal
  log : List UInt8
  short : Bool

def start : State := ⟨⟨[], 0, 0, 0⟩, [], true⟩

/-- Every write finds functions that succeed and fail as they please. -/
inductive Action where
  | write (f : CharPoolFuncs) (str : CString) (inLen : ℕ)
  | clear

def perform (s : State) : Action → Option State
  | .write f str inLen =>
      match internalWrite f s.term str inLen with
      | none => none
      | some (_, written, term) =>
          some ⟨term, s.log ++ (str.chars.take inLen).take written.toNat,
            s.short && decide ((str.chars.take inLen).length < 2 ^ 32)⟩
  | .clear => some ⟨clear s.term, [], s.short⟩

/-- What is promised of the functions: pools grow by what was asked for at least, and keep what they
hold. -/
structure Grows (f : CharPoolFuncs) : Prop where
  acquire : ∀ n pool, f.acquirePool n = .ok pool →
    pool.size = 0 ∧ n ≤ pool.capacity ∧ pool.capacity < 2 ^ 32
  enlarge : ∀ n pool pool', f.enlargePool n pool = .ok pool' →
    pool'.size = pool.size ∧ pool.capacity + n ≤ pool'.capacity ∧ pool'.capacity < 2 ^ 32 ∧
      ∀ i < pool.size, pool'.data i = pool.data i

def Enabled : Action → Prop
  | .write f _ _ => Grows f
  | .clear => True

/-- The pools lie apart in an address space of `2 ^ 64` bytes. -/
inductive Reachable : State → Prop where
  | start : Reachable start
  | step {s s' : State} {a : Action} : Reachable s → Enabled a → perform s a = some s' →
      capacities s'.term.pools < 2 ^ 64 → Reachable s'

/-! ## What is asked -/

structure Keeps (s : State) : Prop where
  contents : held s.term.pools = s.log
  capacity : s.term.counters.capacity.toNat = capacities s.term.pools
  count : s.term.counters.count.toNat = sizes s.term.pools
  freeCount : s.term.counters.freeCount.toNat = capacities s.term.pools - sizes s.term.pools

/-! ## One pool -/

variable {pool : CharPool} {pools next : List CharPool} {left text : List UInt8} {c : Counters}
variable {f : CharPoolFuncs}

theorem copyCnt_le (pool : CharPool) (left : List UInt8) : pool.copyCnt left ≤ left.length :=
  Nat.min_le_right _ _

theorem copyInto_size_le (h : pool.size ≤ pool.capacity) (left : List UInt8) :
    (pool.copyInto left).size ≤ pool.capacity := by
  have hle : pool.copyCnt left ≤ pool.capacity - pool.size := Nat.min_le_left _ _
  show pool.size + pool.copyCnt left ≤ pool.capacity
  omega

/-- A pool that does not take all is full. -/
theorem copyInto_full (h : pool.size ≤ pool.capacity)
    (hleft : left.drop (pool.copyCnt left) ≠ []) : (pool.copyInto left).size = pool.capacity := by
  have hlt : pool.copyCnt left < left.length := by
    by_contra hge
    exact hleft (List.drop_eq_nil_of_le (Nat.not_lt.mp hge))
  have hcopy : pool.copyCnt left = pool.capacity - pool.size := by
    unfold CharPool.copyCnt at hlt ⊢
    omega
  show pool.size + pool.copyCnt left = pool.capacity
  omega

theorem chars_length (pool : CharPool) : pool.chars.length = pool.size := by
  unfold CharPool.chars
  rw [List.length_map, List.length_range]

theorem chars_congr {pool pool' : CharPool} (hsize : pool'.size = pool.size)
    (h : ∀ i < pool.size, pool'.data i = pool.data i) : pool'.chars = pool.chars := by
  unfold CharPool.chars
  rw [hsize]
  exact List.map_congr_left fun i hi => h i (List.mem_range.mp hi)

theorem chars_copyInto (pool : CharPool) (left : List UInt8) :
    (pool.copyInto left).chars = pool.chars ++ left.take (pool.copyCnt left) := by
  have hle := copyCnt_le pool left
  show (List.range (pool.size + pool.copyCnt left)).map (pool.copyInto left).data = _
  rw [List.range_add, List.map_append]
  congr 1
  · refine List.map_congr_left fun i hi => if_neg ?_
    have hlt := List.mem_range.mp hi
    omega
  · refine List.ext_getElem ?_ fun i hi hi' => ?_
    · rw [List.length_map, List.length_map, List.length_range, List.length_take, Nat.min_eq_left hle]
    · rw [List.length_take, Nat.min_eq_left hle] at hi'
      rw [List.getElem_map, List.getElem_map, List.getElem_range, List.getElem_take]
      refine (if_pos ⟨Nat.le_add_right _ _, Nat.add_lt_add_left hi' _⟩).trans ?_
      rw [Nat.add_sub_cancel_left, List.getD_eq_getElem _ _ (Nat.lt_of_lt_of_le hi' hle)]

/-! ## The chain -/

/-- Pools hold no more than their capacity, and those behind one with room are empty. -/
structure Chain (pools : List CharPool) : Prop where
  bounded : ∀ p ∈ pools, p.size ≤ p.capacity ∧ p.capacity < 2 ^ 32
  ordered : pools.Pairwise fun p q => p.size < p.capacity → q.size = 0

theorem chain_nil : Chain [] := ⟨(fun _ h => nomatch h), .nil⟩

theorem chain_cons : Chain (pool :: pools) ↔
    (pool.size ≤ pool.capacity ∧ pool.capacity < 2 ^ 32) ∧
      (pool.size < pool.capacity → ∀ q ∈ pools, q.size = 0) ∧ Chain pools := by
  constructor
  · rintro ⟨hbounded, hordered⟩
    obtain ⟨hpool, hpools⟩ := List.forall_mem_cons.mp hbounded
    obtain ⟨hempty, hordered⟩ := List.pairwise_cons.mp hordered
    exact ⟨hpool, fun hlt q hq => hempty q hq hlt, hpools, hordered⟩
  · rintro ⟨hpool, hempty, hpools, hordered⟩
    exact ⟨List.forall_mem_cons.mpr ⟨hpool, hpools⟩,
      List.pairwise_cons.mpr ⟨fun q hq hlt => hempty hlt q hq, hordered⟩⟩

theorem chain_append {xs ys : List CharPool} (hxs : Chain xs) (hys : Chain ys)
    (hfull : ∀ p ∈ xs, p.size = p.capacity) : Chain (xs ++ ys) := by
  refine ⟨?_, List.pairwise_append.mpr ⟨hxs.ordered, hys.ordered, ?_⟩⟩
  · intro p hp
    exact (List.mem_append.mp hp).elim (hxs.bounded p) (hys.bounded p)
  · intro p hp q _ hlt
    exact absurd (hfull p hp) (Nat.ne_of_lt hlt)

theorem held_nil : held [] = [] := rfl

theorem held_cons (pool : CharPool) (pools : List CharPool) :
    held (pool :: pools) = pool.chars ++ held pools := by
  unfold held
  rw [List.flatMap_cons]

theorem held_append (xs ys : List CharPool) : held (xs ++ ys) = held xs ++ held ys := by
  unfold held
  rw [List.flatMap_append]

theorem held_empty (h : ∀ p ∈ pools, p.size = 0) : held pools = [] := by
  refine List.flatMap_eq_nil_iff.mpr fun p hp => ?_
  refine List.eq_nil_of_length_eq_zero ?_
  rw [chars_length, h p hp]

/-- What copying into a chain does: it takes a part of the text, and all pools are full when it is
not all. -/
structure Copies (pools : List CharPool) (left : List UInt8) (c : Counters) (p : Progress) :
    Prop where
  text : ∃ n, held p.pools = held pools ++ left.take n ∧ p.left = left.drop n
  chain : Chain p.pools
  full : p.left ≠ [] → ∀ q ∈ p.pools, q.size = q.capacity
  capacities : p.pools.map CharPool.capacity = pools.map CharPool.capacity
  counter : p.counters.capacity = c.capacity
  unused : p.pools = [] → p.counters = c

/-- The pools behind the first one are empty. -/
theorem copyIntoPool_spec (hchain : Chain pools)
    (hempty : ∀ q ∈ pools.tail, q.size = 0) (left : List UInt8) (c : Counters) :
    Copies pools left c (copyIntoPool pools left c) := by
  induction pools generalizing left c with
  | nil =>
      refine ⟨⟨0, ?_, rfl⟩, chain_nil, (fun _ q hq => nomatch hq), rfl, rfl, fun _ => rfl⟩
      exact (List.append_nil _).symm
  | cons pool next ih =>
      obtain ⟨⟨hsize, hcap⟩, -, hnext⟩ := chain_cons.mp hchain
      have hempty' : ∀ q ∈ next, q.size = 0 := hempty
      unfold copyIntoPool
      split
      next hgo =>
        have hleft : left.drop (pool.copyCnt left) ≠ [] := List.length_pos_iff.mp hgo.1
        have hfull := copyInto_full hsize hleft
        obtain ⟨⟨n, hheld, hrest⟩, hchain', hall, hcaps, hcounter, -⟩ :=
          ih hnext (fun q hq => hempty' q (List.mem_of_mem_tail hq))
            (left.drop (pool.copyCnt left)) (c.copied (pool.copyCnt left))
        refine ⟨⟨pool.copyCnt left + n, ?_, ?_⟩, ?_, ?_, ?_, hcounter, fun h => nomatch h⟩
        · show held (pool.copyInto left :: _) = _
          rw [held_cons, held_cons, hheld, chars_copyInto, held_empty hempty', List.append_nil,
            List.nil_append, List.append_assoc, List.take_add]
        · show (copyIntoPool next _ _).left = _
          rw [hrest, List.drop_drop]
        · refine chain_cons.mpr ⟨⟨copyInto_size_le hsize left, hcap⟩, ?_, hchain'⟩
          intro hlt
          exact absurd hfull (Nat.ne_of_lt hlt)
        · intro hne
          exact List.forall_mem_cons.mpr ⟨hfull, hall hne⟩
        · exact congrArg (pool.capacity :: ·) hcaps
      next hstop =>
        refine ⟨⟨pool.copyCnt left, ?_, rfl⟩, ?_, ?_, rfl, rfl, fun h => nomatch h⟩
        · show held (pool.copyInto left :: next) = _
          rw [held_cons, held_cons, chars_copyInto, held_empty hempty', List.append_nil,
            List.append_nil]
        · refine chain_cons.mpr ⟨⟨copyInto_size_le hsize left, hcap⟩, fun _ => hempty', hnext⟩
        · intro hne
          have hlast : next = [] := by
            by_contra h
            exact hstop ⟨List.length_pos_iff.mpr hne, h⟩
          subst hlast
          exact List.forall_mem_cons.mpr ⟨copyInto_full hsize hne, fun q hq => nomatch hq⟩

/-! ## A write -/

/-- What a write does to the capacities and to the counter of them. -/
inductive Grown (pools pools' : List CharPool) (c c' : Counters) : Prop where
  | same : pools'.map CharPool.capacity = pools.map CharPool.capacity → c'.capacity = c.capacity →
      Grown pools pools' c c'
  | enlarged (d : ℕ) : pools ≠ [] → pools' ≠ [] → capacities pools' = capacities pools + d →
      c'.capacity = c.capacity + UInt64.ofNat d → Grown pools pools' c c'
  | acquired : pools' ≠ [] → capacities pools < capacities pools' → c'.capacity = c.capacity →
      Grown pools pools' c c'

theorem capacities_append (xs ys : List CharPool) :
    capacities (xs ++ ys) = capacities xs + capacities ys := by
  unfold capacities
  rw [List.map_append, List.sum_append]

/-- A pool with room for all takes all. -/
theorem copyIntoPool_room (hroom : left.length ≤ pool.capacity - pool.size) (c : Counters) :
    copyIntoPool [pool] left c = ⟨[pool.copyInto left], [], c.copied left.length⟩ := by
  have hcopy : pool.copyCnt left = left.length := Nat.min_eq_right hroom
  unfold copyIntoPool
  rw [if_neg fun h => h.2 rfl, hcopy, List.drop_length]

theorem grow_done (f : CharPoolFuncs) (rounds : ℕ) {p : Progress} (h : p.left = []) :
    grow f rounds p = some (.okay, p) := by
  unfold grow
  exact if_pos h

/-- What a write does to a chain: it takes a part of the text. -/
structure Writes (pools : List CharPool) (text : List UInt8) (c : Counters) (p : Progress) :
    Prop where
  text : ∃ n, held p.pools = held pools ++ text.take n ∧ p.left = text.drop n
  chain : Chain p.pools
  grown : Grown pools p.pools c p.counters
  unused : p.pools = [] → p.counters = c

theorem enlargeLast_some {last' : CharPool} {c' : Counters}
    (h : enlargeLast f pools left c = some (last', c')) :
    ∃ init last, pools = init ++ [last] ∧ f.enlargePool left.length last = .ok last' ∧
      c' = c.enlarged ((last'.capacity + 2 ^ 32 - last.capacity) % 2 ^ 32) := by
  unfold enlargeLast at h
  cases hlast : pools.getLast? with
  | none =>
      rw [hlast] at h
      exact nomatch h
  | some last =>
      rw [hlast] at h
      dsimp only at h
      cases henlarge : f.enlargePool left.length last with
      | error res =>
          rw [henlarge] at h
          exact nomatch h
      | ok found =>
          rw [henlarge] at h
          obtain ⟨rfl, rfl⟩ := Prod.mk.inj (Option.some.inj h)
          obtain ⟨init, rfl⟩ := List.getLast?_eq_some_iff.mp hlast
          exact ⟨init, last, rfl, henlarge, rfl⟩

theorem chars_eq_nil (h : pool.size = 0) : pool.chars = [] :=
  List.eq_nil_of_length_eq_zero ((chars_length pool).trans h)

/-- A new pool behind full ones takes all. -/
theorem writes_acquired (hchain : Chain pools) (hfull : ∀ q ∈ pools, q.size = q.capacity)
    (hleft : left ≠ []) (hsize : pool.size = 0) (hle : left.length ≤ pool.capacity)
    (hlt : pool.capacity < 2 ^ 32) :
    Writes pools left c ⟨pools ++ [pool.copyInto left], [], c.copied left.length⟩ := by
  have hcopy : pool.copyCnt left = left.length := Nat.min_eq_right (by omega)
  have hpos := List.length_pos_iff.mpr hleft
  refine ⟨⟨left.length, ?_, List.drop_length.symm⟩, ?_, ?_,
    fun h => absurd h (List.append_ne_nil_of_right_ne_nil _ (List.cons_ne_nil _ _))⟩
  · rw [held_append, held_cons, chars_copyInto, chars_eq_nil hsize, hcopy, List.nil_append]
    exact congrArg _ (List.append_nil _)
  · have hroom := @copyInto_size_le pool (by omega) left
    have hnew : Chain [pool.copyInto left] :=
      chain_cons.mpr ⟨⟨hroom, hlt⟩, (fun _ q hq => nomatch hq), chain_nil⟩
    exact chain_append hchain hnew hfull
  · refine .acquired (List.append_ne_nil_of_right_ne_nil _ (List.cons_ne_nil _ _)) ?_ rfl
    rw [capacities_append]
    show capacities pools < capacities pools + (pool.capacity + 0)
    omega

/-- The last pool takes all once it is enlarged. -/
theorem writes_enlarged {init : List CharPool} {last last' : CharPool}
    (hchain : Chain (init ++ [last])) (hfull : ∀ q ∈ init ++ [last], q.size = q.capacity)
    (hsize : last'.size = last.size) (hle : last.capacity + left.length ≤ last'.capacity)
    (hlt : last'.capacity < 2 ^ 32) (hdata : ∀ i < last.size, last'.data i = last.data i) :
    Writes (init ++ [last]) left c ⟨init ++ [last'.copyInto left], [],
      (c.enlarged ((last'.capacity + 2 ^ 32 - last.capacity) % 2 ^ 32)).copied left.length⟩ := by
  have hlast := hfull last (List.mem_append_right _ List.mem_cons_self)
  have hcopy : last'.copyCnt left = left.length := Nat.min_eq_right (by omega)
  have hdiff : (last'.capacity + 2 ^ 32 - last.capacity) % 2 ^ 32 =
      last'.capacity - last.capacity := by omega
  refine ⟨⟨left.length, ?_, List.drop_length.symm⟩, ?_, ?_,
    fun h => absurd h (List.append_ne_nil_of_right_ne_nil _ (List.cons_ne_nil _ _))⟩
  · show held (init ++ [last'.copyInto left]) = held (init ++ [last]) ++ left.take left.length
    rw [held_append, held_append, held_cons, held_cons, chars_copyInto, chars_congr hsize hdata,
      hcopy, held_nil, List.append_nil, List.append_nil, List.append_assoc]
  · have hinit : Chain init :=
      ⟨fun p hp => hchain.bounded p (List.mem_append_left _ hp),
        (List.pairwise_append.mp hchain.ordered).1⟩
    have hroom := @copyInto_size_le last' (by omega) left
    have hnew : Chain [last'.copyInto left] :=
      chain_cons.mpr ⟨⟨hroom, hlt⟩, (fun _ q hq => nomatch hq), chain_nil⟩
    exact chain_append hinit hnew fun p hp => hfull p (List.mem_append_left _ hp)
  · have hne (x : CharPool) : init ++ [x] ≠ [] :=
      List.append_ne_nil_of_right_ne_nil _ (List.cons_ne_nil _ _)
    refine .enlarged (last'.capacity - last.capacity) (hne _) (hne _) ?_ ?_
    · rw [capacities_append, capacities_append, Nat.add_assoc]
      refine congrArg _ ?_
      show last'.capacity + 0 = last.capacity + 0 + (last'.capacity - last.capacity)
      omega
    · rw [hdiff]
      rfl

/-- The functions grow pools with a property as promised, and the property stays. -/
structure GrowsOn (P : CharPool → Prop) (f : CharPoolFuncs) : Prop where
  acquire : ∀ n pool, 0 < n → f.acquirePool n = .ok pool →
    P pool ∧ pool.size = 0 ∧ n ≤ pool.capacity ∧ pool.capacity < 2 ^ 32
  enlarge : ∀ n pool pool', 0 < n → P pool → f.enlargePool n pool = .ok pool' →
    P pool' ∧ pool'.size = pool.size ∧ pool.capacity + n ≤ pool'.capacity ∧
      pool'.capacity < 2 ^ 32 ∧ ∀ i < pool.size, pool'.data i = pool.data i
  copyInto : ∀ pool left, 0 ∉ left → P pool → P (pool.copyInto left)

theorem Grows.on (hf : Grows f) : GrowsOn (fun _ => True) f :=
  ⟨fun n pool _ h => ⟨trivial, hf.acquire n pool h⟩,
    fun n pool pool' _ _ h => ⟨trivial, hf.enlarge n pool pool' h⟩, fun _ _ _ _ => trivial⟩

variable {P : CharPool → Prop}

theorem copyIntoPool_forall (hcopy : ∀ pool left, 0 ∉ left → P pool → P (pool.copyInto left))
    (hP : ∀ q ∈ pools, P q) (hzero : 0 ∉ left) (c : Counters) :
    ∀ q ∈ (copyIntoPool pools left c).pools, P q := by
  induction pools generalizing left c with
  | nil => exact fun q hq => nomatch hq
  | cons pool next ih =>
      obtain ⟨hpool, hnext⟩ := List.forall_mem_cons.mp hP
      have hdrop : 0 ∉ left.drop (pool.copyCnt left) := fun h => hzero (List.mem_of_mem_drop h)
      unfold copyIntoPool
      split
      next => exact List.forall_mem_cons.mpr ⟨hcopy pool left hzero hpool, ih hnext hdrop _⟩
      next => exact List.forall_mem_cons.mpr ⟨hcopy pool left hzero hpool, hnext⟩

/-- One round is enough: what grows has room for all that is left. -/
theorem grow_spec (hf : GrowsOn P f) {rounds : ℕ} {p : Progress}
    (hrounds : p.left ≠ [] → 0 < rounds) (hchain : Chain p.pools)
    (hfull : p.left ≠ [] → ∀ q ∈ p.pools, q.size = q.capacity) (hP : ∀ q ∈ p.pools, P q)
    (hzero : 0 ∉ p.left) :
    ∃ res p', grow f rounds p = some (res, p') ∧ Writes p.pools p.left p.counters p' ∧
      ∀ q ∈ p'.pools, P q := by
  have hsame : Writes p.pools p.left p.counters p :=
    ⟨⟨0, (List.append_nil _).symm, rfl⟩, hchain, .same rfl rfl, fun _ => rfl⟩
  by_cases hleft : p.left = []
  · exact ⟨_, p, grow_done f rounds hleft, hsame, hP⟩
  · have hrounds := hrounds hleft
    have hpos := List.length_pos_iff.mpr hleft
    cases rounds with
    | zero => exact (Nat.lt_irrefl 0 hrounds).elim
    | succ rounds =>
        have hfull := hfull hleft
        unfold grow
        rw [if_neg hleft]
        dsimp only
        cases henlarge : enlargeLast f p.pools p.left p.counters with
        | some found =>
            obtain ⟨last', c⟩ := found
            obtain ⟨init, last, hpools, hlast', rfl⟩ := enlargeLast_some henlarge
            rw [hpools] at hchain hfull hP ⊢
            obtain ⟨hgrown, hsize, hle, hlt, hdata⟩ := hf.enlarge _ _ _ hpos
              (hP last (List.mem_append_right _ List.mem_cons_self)) hlast'
            have hlast := hfull last (List.mem_append_right _ List.mem_cons_self)
            dsimp only
            rw [copyIntoPool_room (by omega), grow_done f rounds rfl, List.dropLast_concat]
            refine ⟨_, _, rfl, writes_enlarged hchain hfull hsize hle hlt hdata, ?_⟩
            intro q hq
            rcases List.mem_append.mp hq with hq | hq
            · exact hP q (List.mem_append_left _ hq)
            · rw [List.mem_singleton.mp hq]
              exact hf.copyInto _ _ hzero hgrown
        | none =>
            dsimp only
            cases hacquire : f.acquirePool p.left.length with
            | error res => exact ⟨res, p, rfl, hsame, hP⟩
            | ok pool =>
                obtain ⟨hnew, hsize, hle, hlt⟩ := hf.acquire _ _ hpos hacquire
                dsimp only
                rw [copyIntoPool_room (by omega), grow_done f rounds rfl]
                refine ⟨_, _, rfl, writes_acquired hchain hfull hleft hsize hle hlt, ?_⟩
                intro q hq
                rcases List.mem_append.mp hq with hq | hq
                · exact hP q hq
                · rw [List.mem_singleton.mp hq]
                  exact hf.copyInto _ _ hzero hnew

/-- Pools are never given up. -/
theorem Grown.eq_nil {pools' : List CharPool} {c' : Counters} (h : Grown pools pools' c c')
    (hnone : pools' = []) : pools = [] := by
  cases h with
  | same hcaps => exact List.map_eq_nil_iff.mp (hcaps.symm.trans (by rw [hnone]; rfl))
  | enlarged d _ hne => exact (hne hnone).elim
  | acquired hne => exact (hne hnone).elim

theorem grown_trans_same {pools₁ pools₂ : List CharPool} {c₁ c₂ : Counters}
    (hcaps : pools₁.map CharPool.capacity = pools.map CharPool.capacity)
    (hcounter : c₁.capacity = c.capacity) (h : Grown pools₁ pools₂ c₁ c₂) :
    Grown pools pools₂ c c₂ := by
  have hsum : capacities pools₁ = capacities pools := congrArg List.sum hcaps
  cases h with
  | same hcaps' hcounter' => exact .same (hcaps'.trans hcaps) (hcounter'.trans hcounter)
  | enlarged d hne hne' hsum' hcounter' =>
      refine .enlarged d ?_ hne' (hsum ▸ hsum') (hcounter ▸ hcounter')
      rintro rfl
      exact hne (List.map_eq_nil_iff.mp hcaps)
  | acquired hne' hlt hcounter' => exact .acquired hne' (hsum ▸ hlt) (hcounter'.trans hcounter)

theorem chain_of_append {xs ys : List CharPool} (h : Chain (xs ++ ys)) : Chain xs ∧ Chain ys := by
  obtain ⟨hxs, hys, -⟩ := List.pairwise_append.mp h.ordered
  exact ⟨⟨fun p hp => h.bounded p (List.mem_append_left _ hp), hxs⟩,
    ⟨fun p hp => h.bounded p (List.mem_append_right _ hp), hys⟩⟩

/-- The pools before the first one with room are full, and those behind it are empty. -/
theorem split_room (hchain : Chain pools) :
    (∀ p ∈ pools.takeWhile fun pool => !pool.hasRoom, p.size = p.capacity) ∧
    ∀ q ∈ (pools.dropWhile fun pool => !pool.hasRoom).tail, q.size = 0 := by
  induction pools with
  | nil => exact ⟨(fun p hp => nomatch hp), fun q hq => nomatch hq⟩
  | cons pool pools ih =>
      obtain ⟨⟨hsize, -⟩, hempty, hpools⟩ := chain_cons.mp hchain
      cases hroom : pool.hasRoom with
      | true =>
          rw [List.takeWhile_cons_of_neg (by rw [hroom]; decide),
            List.dropWhile_cons_of_neg (by rw [hroom]; decide)]
          exact ⟨(fun p hp => nomatch hp), hempty (of_decide_eq_true hroom)⟩
      | false =>
          rw [List.takeWhile_cons_of_pos (by rw [hroom]; decide),
            List.dropWhile_cons_of_pos (by rw [hroom]; decide)]
          have hfull := of_decide_eq_false hroom
          exact ⟨List.forall_mem_cons.mpr ⟨by omega, (ih hpools).1⟩, (ih hpools).2⟩

/-- Two parts of a text, taken one after the other. -/
theorem take_drop_take (text : List UInt8) (n m : ℕ) :
    text.take n ++ (text.drop n).take m =
      text.take (text.length - ((text.drop n).drop m).length) := by
  rw [← List.take_add, List.drop_drop, List.length_drop, List.take_eq_take_min]
  congr 1
  omega

/-- A write stores some of its text behind what the pools hold. -/
theorem internalWrite_spec (hf : GrowsOn P f) {term : CacheTerminal} (hchain : Chain term.pools)
    (hP : ∀ q ∈ term.pools, P q) (str : CString) (inLen : ℕ) :
    ∃ res n term', internalWrite f term str inLen = some (res, UInt32.ofNat n, term') ∧
      n ≤ (str.chars.take inLen).length ∧
      held term'.pools = held term.pools ++ (str.chars.take inLen).take n ∧
      Chain term'.pools ∧ Grown term.pools term'.pools term.counters term'.counters ∧
      (term'.pools = [] → term'.counters = term.counters) ∧ ∀ q ∈ term'.pools, P q := by
  have hzero : 0 ∉ str.chars.take inLen := fun h => str.nonzero (List.mem_of_mem_take h)
  unfold internalWrite
  dsimp only
  generalize str.chars.take inLen = text at hzero
  by_cases hlen : text.length = 0
  · rw [if_pos hlen]
    exact ⟨.okay, 0, term, rfl, Nat.zero_le _, (List.append_nil _).symm, hchain, .same rfl rfl,
      fun _ => rfl, hP⟩
  · rw [if_neg hlen]
    have hsplit : term.pools.takeWhile (fun pool => !pool.hasRoom) ++
        term.pools.dropWhile (fun pool => !pool.hasRoom) = term.pools :=
      List.takeWhile_append_dropWhile
    obtain ⟨hfull, hempty⟩ := split_room hchain
    generalize term.pools.takeWhile (fun pool => !pool.hasRoom) = full at *
    generalize term.pools.dropWhile (fun pool => !pool.hasRoom) = rest at *
    rw [← hsplit] at hchain hP ⊢
    obtain ⟨hfullChain, hrest⟩ := chain_of_append hchain
    obtain ⟨⟨n, hheld, hleft⟩, hchain', hall, hcaps, hcounter, hunused⟩ :=
      copyIntoPool_spec hrest hempty text term.counters
    have hP' := copyIntoPool_forall hf.copyInto
      (fun q hq => hP q (List.mem_append_right _ hq)) hzero term.counters
    generalize copyIntoPool rest text term.counters = p at *
    obtain ⟨res, p', hgrow, ⟨⟨m, hheld', hleft'⟩, hchain'', hgrown, hunused'⟩, hall'⟩ :=
      grow_spec hf (p := { p with pools := full ++ p.pools }) (fun _ => Nat.pos_of_ne_zero hlen)
        (chain_append hfullChain hchain' hfull)
        (fun hne q hq => (List.mem_append.mp hq).elim (hfull q) (hall hne q))
        (fun q hq => (List.mem_append.mp hq).elim
          (fun hq => hP q (List.mem_append_left _ hq)) (hP' q))
        (fun h => hzero (List.mem_of_mem_drop (hleft ▸ h)))
    rw [hgrow]
    refine ⟨res, text.length - p'.left.length, _, rfl, Nat.sub_le _ _, ?_, hchain'', ?_, ?_, hall'⟩
    · show held p'.pools = _
      change held p'.pools = held (full ++ p.pools) ++ p.left.take m at hheld'
      change p'.left = p.left.drop m at hleft'
      rw [hheld', hleft', held_append, held_append, hheld, hleft, ← take_drop_take,
        List.append_assoc, List.append_assoc, List.append_assoc]
    · refine grown_trans_same ?_ hcounter hgrown
      rw [List.map_append, List.map_append, hcaps]
    · intro hnone
      refine (hunused' hnone).trans (hunused ?_)
      exact (List.append_eq_nil_iff.mp (hgrown.eq_nil hnone)).2

/-! ## Clearing -/

theorem chain_clear (h : Chain pools) : Chain (pools.map CharPool.clear) := by
  refine ⟨?_, ?_⟩
  · intro p hp
    obtain ⟨pool, hpool, rfl⟩ := List.mem_map.mp hp
    exact ⟨Nat.zero_le _, (h.bounded pool hpool).2⟩
  · refine List.pairwise_map.mpr (h.ordered.imp fun _ _ => rfl)

theorem held_clear (pools : List CharPool) : held (pools.map CharPool.clear) = [] := by
  refine held_empty fun p hp => ?_
  obtain ⟨pool, -, rfl⟩ := List.mem_map.mp hp
  rfl

theorem capacities_clear (pools : List CharPool) :
    capacities (pools.map CharPool.clear) = capacities pools := by
  unfold capacities
  rw [List.map_map]
  rfl

/-! ## All runs -/

/-- What is reported is what the pools hold, as long as reports do not wrap around.  The counter of
the capacities leaves out what pools are acquired with. -/
structure Inv (s : State) : Prop where
  chain : Chain s.term.pools
  contents : s.short = true → held s.term.pools = s.log
  unused : s.term.pools = [] → s.term.counters = ⟨0, 0, 0⟩ ∧ s.log = []
  capacity : s.term.pools ≠ [] → s.term.counters.capacity.toNat < capacities s.term.pools

theorem inv_start : Inv start :=
  ⟨chain_nil, (fun _ => rfl), (fun _ => ⟨rfl, rfl⟩), fun h => (h rfl).elim⟩

variable {s s' : State} {a : Action}

theorem Grown.capacity_lt {pools' : List CharPool} {c' : Counters} (h : Grown pools pools' c c')
    (hne : pools' ≠ []) (hunused : pools = [] → c.capacity = 0)
    (hlt : pools ≠ [] → c.capacity.toNat < capacities pools) (hroom : capacities pools' < 2 ^ 64) :
    c'.capacity.toNat < capacities pools' := by
  cases h with
  | same hcaps hcounter =>
      have hsum : capacities pools' = capacities pools := congrArg List.sum hcaps
      rw [hcounter, hsum]
      refine hlt ?_
      rintro rfl
      exact hne (List.map_eq_nil_iff.mp hcaps)
  | enlarged d hne' _ hsum hcounter =>
      have hlt := hlt hne'
      rw [hcounter, UInt64.toNat_add, UInt64.toNat_ofNat', hsum]
      omega
  | acquired _ hsum hcounter =>
      rw [hcounter]
      by_cases hnone : pools = []
      · rw [hunused hnone]
        exact Nat.zero_lt_of_lt hsum
      · exact Nat.lt_trans (hlt hnone) hsum

theorem Inv.step (h : Inv s) (ha : Enabled a) (hs : perform s a = some s')
    (hroom : capacities s'.term.pools < 2 ^ 64) : Inv s' := by
  cases a with
  | clear =>
      obtain rfl := Option.some.inj hs
      refine ⟨chain_clear h.chain, fun _ => held_clear _, ?_, ?_⟩
      · intro hnone
        exact ⟨(h.unused (List.map_eq_nil_iff.mp hnone)).1, rfl⟩
      · intro hne
        refine Nat.lt_of_lt_of_eq (h.capacity ?_) (capacities_clear _).symm
        intro hnone
        exact hne (List.map_eq_nil_iff.mpr hnone)
  | write f str inLen =>
      obtain ⟨res, n, term', hwrite, hle, hheld, hchain, hgrown, hunused, -⟩ :=
        internalWrite_spec (Grows.on ha) h.chain (fun _ _ => trivial) str inLen
      unfold perform at hs
      dsimp only at hs
      rw [hwrite] at hs
      obtain rfl := Option.some.inj hs
      refine ⟨hchain, ?_, ?_, ?_⟩
      · intro hshort
        obtain ⟨hshort, hlen⟩ := Bool.and_eq_true_iff.mp hshort
        have hlt := of_decide_eq_true hlen
        have hcount : (UInt32.ofNat n).toNat = n :=
          UInt32.toNat_ofNat_of_lt' (Nat.lt_of_le_of_lt hle hlt)
        show held term'.pools = s.log ++ (str.chars.take inLen).take (UInt32.ofNat n).toNat
        rw [hcount, hheld, h.contents hshort]
      · intro hnone
        change term'.pools = [] at hnone
        have hpools := hgrown.eq_nil hnone
        obtain ⟨hcounters, hlog⟩ := h.unused hpools
        refine ⟨(hunused hnone).trans hcounters, ?_⟩
        have htext : (str.chars.take inLen).take n = [] := by
          rw [hnone, hpools, held_nil, List.nil_append] at hheld
          exact hheld.symm
        have hzero : n = 0 := by
          have hlen := congrArg List.length htext
          rw [List.length_take, Nat.min_eq_left hle] at hlen
          exact hlen
        subst hzero
        show s.log ++ _ = []
        rw [hlog]
        rfl
      · intro hne
        refine hgrown.capacity_lt hne ?_ h.capacity hroom
        intro hnone
        rw [(h.unused hnone).1]

theorem Reachable.inv (h : Reachable s) : Inv s := by
  induction h with
  | start => exact inv_start
  | step _ ha hs hroom ih => exact ih.step ha hs hroom

/-- The characters are kept in every run, as long as no write reports `2 ^ 32` characters or more.
The counters are right exactly as long as no pool was acquired. -/
theorem keeps_iff (h : Reachable s) :
    (s.short = true → held s.term.pools = s.log) ∧ (Keeps s ↔ s.term.pools = []) := by
  have hinv := h.inv
  refine ⟨hinv.contents, ?_, ?_⟩
  · intro hkeeps
    by_contra hne
    exact Nat.ne_of_lt (hinv.capacity hne) hkeeps.capacity
  · intro hnone
    obtain ⟨hcounters, hlog⟩ := hinv.unused hnone
    refine ⟨?_, ?_, ?_, ?_⟩
    · rw [hnone, hlog]
      rfl
    all_goals rw [hcounters, hnone]; rfl

/-- Pools of the size that is asked for, which cannot be enlarged. -/
def exactPools : CharPoolFuncs where
  acquirePool n := if n < 2 ^ 32 then .ok ⟨0, n, fun _ => 0, []⟩ else .error .outOfMemory
  enlargePool _ _ := .error .outOfMemory

theorem exactPools_grows : Grows exactPools := by
  refine ⟨fun n pool h => ?_, fun n pool pool' h => nomatch h⟩
  change (if n < 2 ^ 32 then _ else _) = _ at h
  split at h
  next hlt =>
    obtain rfl := Except.ok.inj h
    exact ⟨rfl, Nat.le_refl n, hlt⟩
  next => exact nomatch h

/-- After a first character. -/
def written : State :=
  ⟨⟨[CharPool.copyInto ⟨0, 1, fun _ => 0, []⟩ [97]], Counters.copied ⟨0, 0, 0⟩ 1⟩, [97], true⟩

theorem written_reachable : Reachable written :=
  .step (a := .write exactPools ⟨[97], by decide⟩ 1) .start exactPools_grows rfl (by decide)

theorem keeps_iff_written :
    (written.short = true → held written.term.pools = written.log) ∧
      (Keeps written ↔ written.term.pools = []) :=
  keeps_iff written_reachable

/-- The first character is acquired a pool for. -/
theorem not_keeps : ¬ ∀ s, Reachable s → Keeps s := fun h =>
  absurd (h written written_reachable).capacity (by decide)

end Beelzebub.Cache
