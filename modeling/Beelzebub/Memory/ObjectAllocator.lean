import Beelzebub.Memory.ObjectPools
import Mathlib.Algebra.Order.BigOperators.Group.List
import Mathlib.Algebra.Order.Group.Nat
import Mathlib.Data.List.Nodup
import Mathlib.Data.List.Perm.Basic

/-!
# The object allocator

An allocator takes objects from the first pool of its chain that has a free one.  A pool that
becomes full is enlarged, and when all are full another one is acquired.  A pool whose last
object is freed may be released, depending on the options.

What the allocator asks of the heap may be refused each time; pages that are granted belong to
no other pool.  A pool that is released is gone.
-/

namespace Beelzebub.Objects

/-! ## The code -/

inductive PoolReleaseOptions where
  | releaseAll
  | keepOne
  | noRelease
  deriving DecidableEq

inductive HandleResult where
  | objaMaximumCapacity
  | objaPoolsExhausted
  | objaAlreadyFree
  | argumentOutOfRange
  | outOfMemory
  deriving DecidableEq

/-- What the constructor is given: whether there is an enlarger, and whether a bit of an object
says that it is busy. -/
structure Config where
  sizes : Sizes
  enlarges : Bool
  releaseOptions : PoolReleaseOptions
  busyBit : Bool
  quota : ℕ

/-- The allocator and the memory of the pools.  The last field is only for the record: the
objects that were allocated and not deallocated. -/
structure ObjectAllocator where
  firstPool : Option ℕ
  pools : ℕ → ObjectPool
  capacity : ℕ
  freeCount : ℕ
  poolCount : ℕ
  busyCount : ℕ
  busy : ℕ → Bool
  live : List ℕ

namespace ObjectAllocator

def initial : ObjectAllocator where
  firstPool := none
  pools _ := .blank
  capacity := 0
  freeCount := 0
  poolCount := 0
  busyCount := 0
  busy _ := false
  live := []

def setPool (a : ℕ) (p : ObjectPool) (s : ObjectAllocator) : ObjectAllocator :=
  { s with pools := Function.update s.pools a p }

/-- `*busyByte |= …` and `*busyByte &= ~…`. -/
def setBusy (cfg : Config) (o : ℕ) (busy : Bool) (s : ObjectAllocator) : ObjectAllocator :=
  { s with busy := if cfg.busyBit then Function.update s.busy o busy else s.busy }

inductive Search where
  | found (pool : ℕ)
  | exhausted (last : ℕ)
  | lost

/-- The loop of `AllocateObject`, for so many rounds. -/
def search (pools : ℕ → ObjectPool) : ℕ → ℕ → Search
  | 0, _ => .lost
  | fuel + 1, current =>
      if (pools current).freeCount = 0 then
        match (pools current).next with
        | none => .exhausted current
        | some temp => search pools fuel temp
      else .found current

/-- The object is the result, its pool is `p` now, and the allocator has one free object less. -/
def handOut (cfg : Config) (o a : ℕ) (p : ObjectPool) (s : ObjectAllocator) :
    Except HandleResult ℕ × ObjectAllocator :=
  (.ok o, { (s.setPool a p).setBusy cfg o true with freeCount := s.freeCount - 1 })

/-- The first free object is taken out of the list. -/
def pop (p : ObjectPool) : ObjectPool :=
  { p with freeCount := p.freeCount - 1, firstFreeObject := p.objects p.firstFreeObject }

/-- The pool becomes full: it is enlarged, if it can be. -/
def refill (cfg : Config) (estimatedLeft : ℕ) (granted : Bool) (p : ObjectPool) :
    Option ObjectPool :=
  let p := { p with lastFreeObject := objIndInvalid }
  if cfg.enlarges then p.enlarge cfg.sizes estimatedLeft granted else some p

/-- `AllocateObject` once it has come to a pool with a free object. -/
def takeFrom (cfg : Config) (estimatedLeft : ℕ) (granted : Bool) (a : ℕ) (s : ObjectAllocator) :
    Option (Except HandleResult ℕ × ObjectAllocator) :=
  let o := cfg.sizes.objectAt a (s.pools a).firstFreeObject
  let p := pop (s.pools a)
  if p.freeCount = 0 then
    (refill cfg estimatedLeft granted p).map fun q =>
      if q.capacity ≠ p.capacity then
        { s with capacity := s.capacity + (q.capacity - p.capacity)
                 freeCount := s.freeCount + q.freeCount }.handOut cfg o a q
      else s.handOut cfg o a q
  else some (s.handOut cfg o a p)

/-- A new pool in front of the others. -/
def plug (a : ℕ) (p : ObjectPool) (s : ObjectAllocator) : ObjectAllocator :=
  { s.setPool a { p with next := s.firstPool } with
    firstPool := some a
    poolCount := s.poolCount + 1
    capacity := s.capacity + p.capacity
    freeCount := s.freeCount + p.freeCount }

/-- A new pool behind the last one, whose first object is the result. -/
def append (cfg : Config) (last a : ℕ) (s : ObjectAllocator) (p : ObjectPool) :
    Except HandleResult ℕ × ObjectAllocator :=
  let o := cfg.sizes.objectAt a p.firstFreeObject
  let p := pop p
  let oldNext := (s.pools last).next
  (.ok o,
    { ((s.setPool last { s.pools last with next := some a }).setPool a
        { p with next := oldNext }).setBusy cfg o true with
      poolCount := s.poolCount + 1
      capacity := s.capacity + p.capacity
      freeCount := s.freeCount + p.freeCount })

/-- `AllocateObject` with an empty chain, where the heap has pages at `acquired` or none.  The
failure leaves the count of busy objects as it is. -/
def acquireFirst (cfg : Config) (estimatedLeft : ℕ) (acquired : Option ℕ) (granted : Bool)
    (s : ObjectAllocator) : Option (Except HandleResult ℕ × ObjectAllocator) :=
  match acquired with
  | none => some (.error .outOfMemory, s)
  | some a =>
      (ObjectPool.acquire cfg.sizes (min estimatedLeft 2)).bind fun p =>
        (s.plug a p).takeFrom cfg estimatedLeft granted a

/-- `AllocateObject` when all pools are full. -/
def acquireNext (cfg : Config) (estimatedLeft : ℕ) (acquired : Option ℕ) (last : ℕ)
    (s : ObjectAllocator) : Option (Except HandleResult ℕ × ObjectAllocator) :=
  match acquired with
  | none => some (.error .objaPoolsExhausted, { s with busyCount := s.busyCount - 1 })
  | some a => (ObjectPool.acquire cfg.sizes (min estimatedLeft 2)).map
    (ObjectAllocator.append cfg last a s)

/-- `AllocateObject` below the quota. -/
def allocateBelow (cfg : Config) (estimatedLeft : ℕ) (acquired : Option ℕ) (granted : Bool)
    (s : ObjectAllocator) : Option (Except HandleResult ℕ × ObjectAllocator) :=
  match s.firstPool with
  | none => s.acquireFirst cfg estimatedLeft acquired granted
  | some first =>
      match search s.pools s.poolCount first with
      | .found a => s.takeFrom cfg estimatedLeft granted a
      | .exhausted last => s.acquireNext cfg estimatedLeft acquired last
      | .lost => none

/-- `AllocateObject`, where the heap grants the pages behind a pool or not. -/
def allocateObject (cfg : Config) (estimatedLeft : ℕ) (acquired : Option ℕ) (granted : Bool)
    (s : ObjectAllocator) : Option (Except HandleResult ℕ × ObjectAllocator) :=
  if s.busyCount ≥ cfg.quota then some (.error .objaMaximumCapacity, s)
  else { s with busyCount := s.busyCount + 1 }.allocateBelow cfg estimatedLeft acquired granted

/-- `Contains`: the index of the object in the pool. -/
def contains (z : Sizes) (a : ℕ) (p : ObjectPool) (o : ℕ) : Option ℕ :=
  if o ≥ a + z.headerSize then
    if (o - (a + z.headerSize)) / z.objectSize < p.capacity then
      some ((o - (a + z.headerSize)) / z.objectSize)
    else none
  else none

inductive Find where
  | found (previous : Option ℕ) (pool i : ℕ)
  | missing
  | lost

/-- The loop of `DeallocateObject`, for so many rounds. -/
def find (z : Sizes) (pools : ℕ → ObjectPool) (o : ℕ) : ℕ → Option ℕ → ℕ → Find
  | 0, _, _ => .lost
  | fuel + 1, previous, current =>
      match contains z current (pools current) o with
      | some i => .found previous current i
      | none =>
          match (pools current).next with
          | none => .missing
          | some temp => find z pools o fuel (some current) temp

/-- The pool is taken out of the chain. -/
def unplug (previous : Option ℕ) (a : ℕ) (s : ObjectAllocator) : ObjectAllocator :=
  let p := s.pools a
  let s := match previous with
    | some b => s.setPool b { s.pools b with next := p.next }
    | none => { s with firstPool := p.next }
  { s with
    poolCount := s.poolCount - 1
    capacity := s.capacity - p.capacity
    freeCount := s.freeCount - p.freeCount }

/-- The object is free again. -/
def putBack (cfg : Config) (o a i : ℕ) (s : ObjectAllocator) : ObjectAllocator :=
  let p := s.pools a
  { (s.setBusy cfg o false).setPool a
      { p with objects := Function.update p.objects i p.firstFreeObject, firstFreeObject := i
               freeCount := p.freeCount + 1 } with
    freeCount := s.freeCount + 1 }

/-- `DeallocateObject` once it has come to the pool of the object. -/
def freeIn (cfg : Config) (o : ℕ) (previous : Option ℕ) (a i : ℕ) (s : ObjectAllocator) :
    ObjectAllocator :=
  if (s.pools a).capacity - (s.pools a).freeCount = 1 ∧
      (cfg.releaseOptions = .releaseAll ∨
        s.poolCount > 1 ∧ cfg.releaseOptions = .keepOne) then s.unplug previous a
  else s.putBack cfg o a i

def deallocateObject (cfg : Config) (o : ℕ) (s : ObjectAllocator) :
    Option (Except HandleResult Unit × ObjectAllocator) :=
  if cfg.busyBit = true ∧ s.busy o = false then some (.error .objaAlreadyFree, s)
  else
    match s.firstPool with
    | none => some (.error .argumentOutOfRange, s)
    | some first =>
        match find cfg.sizes s.pools o s.poolCount none first with
        | .missing => some (.error .argumentOutOfRange, s)
        | .lost => none
        | .found previous a i =>
            some (.ok (), { s with busyCount := s.busyCount - 1 }.freeIn cfg o previous a i)

def forceExpand (cfg : Config) (estimate : ℕ) (acquired : Option ℕ) (s : ObjectAllocator) :
    Option (Except HandleResult Unit × ObjectAllocator) :=
  if s.busyCount ≥ cfg.quota then some (.error .objaMaximumCapacity, s)
  else
    match acquired with
    | none => some (.error .outOfMemory, s)
    | some a => (ObjectPool.acquire cfg.sizes (min estimate 1)).map fun p => (.ok (), s.plug a p)

/-- The calls with the answers of the heap, and a write of the program to an object. -/
inductive Action where
  | allocate (estimatedLeft : ℕ) (acquired : Option ℕ) (granted : Bool)
  | deallocate (o : ℕ)
  | forceExpand (estimate : ℕ) (acquired : Option ℕ)
  | write (a i value : ℕ)

/-- The state after a call, if it comes back. -/
def perform (cfg : Config) (s : ObjectAllocator) : Action → Option ObjectAllocator
  | .allocate estimatedLeft acquired granted =>
      (s.allocateObject cfg estimatedLeft acquired granted).map fun r =>
        match r.1 with
        | .ok o => { r.2 with live := o :: r.2.live }
        | .error _ => r.2
  | .deallocate o =>
      (s.deallocateObject cfg o).map fun r =>
        match r.1 with
        | .ok _ => { r.2 with live := r.2.live.erase o }
        | .error _ => r.2
  | .forceExpand estimate acquired => (s.forceExpand cfg estimate acquired).map Prod.snd
  | .write a i value =>
      some (s.setPool a
        { s.pools a with objects := Function.update (s.pools a).objects i value })

/-- The pools in the order of the chain. -/
def Chained (s : ObjectAllocator) (l : List ℕ) : Prop :=
  Linked.Chain (fun a => (s.pools a).next) s.firstPool l

/-- None of these pools is on the pages. -/
def Clear (cfg : Config) (s : ObjectAllocator) (l : List ℕ) (start stop : ℕ) : Prop :=
  ∀ b ∈ l, b + cfg.sizes.poolSize (s.pools b).capacity ≤ start ∨ stop ≤ b

/-- The first of the pools with a free object. -/
def candidate (s : ObjectAllocator) (l : List ℕ) : Option ℕ :=
  l.find? fun a => (s.pools a).freeCount ≠ 0

/-- The heap grants pages that no pool is on; an object that is deallocated or written to is
live. -/
def Enabled (cfg : Config) (s : ObjectAllocator) : Action → Prop
  | .allocate estimatedLeft acquired granted => ∀ l, s.Chained l →
      match s.candidate l with
      | some a => granted = true →
          s.Clear cfg l (a + cfg.sizes.poolSize (s.pools a).capacity)
            (a + cfg.sizes.poolSize ((s.pools a).capacity + estimatedLeft))
      | none => ∀ a, acquired = some a →
          s.Clear cfg l a (a + cfg.sizes.poolSize (min estimatedLeft 2))
  | .deallocate o => o ∈ s.live
  | .forceExpand estimate acquired => ∀ l, s.Chained l → ∀ a, acquired = some a →
      s.Clear cfg l a (a + cfg.sizes.poolSize (min estimate 1))
  | .write a i _ => cfg.sizes.objectAt a i ∈ s.live ∧ i < (s.pools a).capacity ∧
      ∃ l, s.Chained l ∧ a ∈ l

inductive Reachable (cfg : Config) (kind : ObjectAllocator → Action → Prop) :
    ObjectAllocator → Prop
  | start : Reachable cfg kind initial
  | step {s s' : ObjectAllocator} (a : Action) : Reachable cfg kind s → s.Enabled cfg a →
      kind s a → s.perform cfg a = some s' → Reachable cfg kind s'

/-! ## What is asked -/

/-- The free objects of a pool are linked, as many as it counts, and they are the ones that are
not live. -/
structure Holds (z : Sizes) (a : ℕ) (p : ObjectPool) (frees live : List ℕ) : Prop where
  free : p.Free frees
  count : p.freeCount = frees.length
  nodup : frees.Nodup
  bound : ∀ i ∈ frees, i < p.capacity
  live : ∀ i < p.capacity, i ∈ frees ↔ z.objectAt a i ∉ live

/-- Live objects do not overlap and are in their pools, the pools hold the free ones, and the
counters of the allocator are the sums over the chain. -/
structure Accounted (cfg : Config) (s : ObjectAllocator) (l : List ℕ) : Prop where
  chain : s.Chained l
  distinct : l.Nodup
  disjoint : s.live.Pairwise fun o o' =>
    o + cfg.sizes.objectSize ≤ o' ∨ o' + cfg.sizes.objectSize ≤ o
  inside : ∀ o ∈ s.live, ∃ a ∈ l, a + cfg.sizes.headerSize ≤ o ∧
    o + cfg.sizes.objectSize ≤ a + cfg.sizes.poolSize (s.pools a).capacity
  holds : ∀ a ∈ l, ∃ frees, Holds cfg.sizes a (s.pools a) frees s.live
  capacity : s.capacity = (l.map fun a => (s.pools a).capacity).sum
  freeCount : s.freeCount = (l.map fun a => (s.pools a).freeCount).sum
  poolCount : s.poolCount = l.length

/-- Every call comes back, and a live object can be deallocated. -/
def ComesBack (cfg : Config) (s : ObjectAllocator) (a : Action) : Prop :=
  ∃ s', s.perform cfg a = some s'

/-! ## The condition -/

/-- A pool for so many objects has a size, and objects, and they can be numbered. -/
structure Suitable (z : Sizes) (n : ℕ) : Prop where
  representable : z.Representable n
  pos : 0 < z.objectCount (z.poolSize n)
  bound : z.objectCount (z.poolSize n) < 2 ^ 32

/-- A pool of this capacity can be asked to grow: by some objects, to a size that does not
overflow, and if the pages are granted the objects can be numbered. -/
structure Growable (z : Sizes) (capacity extra : ℕ) (granted : Bool) : Prop where
  pos : 0 < extra
  representable : z.Representable (capacity + extra)
  bound : granted = true → z.objectCount (z.poolSize (capacity + extra)) < 2 ^ 32

/-- The call is over the quota; or it does not take the last free object of a pool that is then
enlarged, unless that pool can grow; and pages are not granted for a pool without objects. -/
def Fit (cfg : Config) (s : ObjectAllocator) : Action → Prop
  | .allocate estimatedLeft acquired granted => cfg.quota ≤ s.busyCount ∨
      ∃ l, s.Chained l ∧
        match s.candidate l with
        | some a => (s.pools a).freeCount = 1 → cfg.enlarges = true →
            Growable cfg.sizes (s.pools a).capacity estimatedLeft granted
        | none => acquired = none ∨
            Suitable cfg.sizes (min estimatedLeft 2) ∧
              (l = [] → cfg.sizes.objectCount (cfg.sizes.poolSize (min estimatedLeft 2)) = 1 →
                cfg.enlarges = true → Growable cfg.sizes 1 estimatedLeft granted)
  | .deallocate _ => True
  | .forceExpand estimate acquired => cfg.quota ≤ s.busyCount ∨ acquired = none ∨
      Suitable cfg.sizes (min estimate 1)
  | .write _ _ _ => True

/-! ## The invariant -/

structure Inv (cfg : Config) (s : ObjectAllocator) (l : List ℕ) (frees : ℕ → List ℕ) : Prop where
  chain : s.Chained l
  distinct : l.Nodup
  exact : ∀ a ∈ l, cfg.sizes.Exact (s.pools a).capacity
  apart : ∀ a ∈ l, ∀ b ∈ l, a ≠ b →
    a + cfg.sizes.poolSize (s.pools a).capacity ≤ b ∨
      b + cfg.sizes.poolSize (s.pools b).capacity ≤ a
  holds : ∀ a ∈ l, Holds cfg.sizes a (s.pools a) (frees a) s.live
  nodup : s.live.Nodup
  inside : ∀ o ∈ s.live, ∃ a ∈ l, ∃ i < (s.pools a).capacity, o = cfg.sizes.objectAt a i
  capacity : s.capacity = (l.map fun a => (s.pools a).capacity).sum
  freeCount : s.freeCount = (l.map fun a => (s.pools a).freeCount).sum
  poolCount : s.poolCount = l.length
  busy : cfg.busyBit = true → ∀ o ∈ s.live, s.busy o = true

variable {cfg : Config} {s s' : ObjectAllocator} {l : List ℕ} {frees : ℕ → List ℕ}
  {z : Sizes} {p q : ObjectPool} {a b i j o : ℕ} {xs live live' : List ℕ}

/-! ### Objects and pools -/

theorem sum_update {f g : ℕ → ℕ} (ha : a ∈ l) (hnd : l.Nodup) (hsame : ∀ b ∈ l, b ≠ a → g b = f b) :
    (l.map g).sum + f a = (l.map f).sum + g a := by
  induction l with
  | nil => cases ha
  | cons b l ih =>
      obtain ⟨hb, hnd'⟩ := List.nodup_cons.mp hnd
      rw [List.map_cons, List.map_cons, List.sum_cons, List.sum_cons]
      cases ha with
      | head =>
          have hrest : l.map g = l.map f := by
            refine List.map_congr_left fun c hc => hsame c (List.mem_cons_of_mem _ hc) ?_
            rintro rfl
            exact hb hc
          rw [hrest]
          omega
      | tail _ ha =>
          have hba : b ≠ a := by
            rintro rfl
            exact hb ha
          rw [hsame b List.mem_cons_self hba]
          have := ih ha hnd' fun c hc => hsame c (List.mem_cons_of_mem _ hc)
          omega

/-- An object is in its pool. -/
theorem objectAt_bounds (h : z.Exact p.capacity) (hi : i < p.capacity) :
    a + z.headerSize ≤ z.objectAt a i ∧
      z.objectAt a i + z.objectSize ≤ a + z.poolSize p.capacity := by
  have hle := Sizes.le_poolSize h.representable
  have hmul := Nat.mul_le_mul_left z.objectSize (show i + 1 ≤ p.capacity from hi)
  unfold Sizes.objectAt
  rw [Nat.mul_comm i]
  rw [Nat.mul_add, Nat.mul_one] at hmul
  omega

/-- Objects of one pool do not overlap. -/
theorem objectAt_lt (h : i < j) : z.objectAt a i + z.objectSize ≤ z.objectAt a j := by
  have hmul := Nat.mul_le_mul_right z.objectSize (show i + 1 ≤ j from h)
  unfold Sizes.objectAt
  rw [Nat.add_mul, Nat.one_mul] at hmul
  omega

theorem Sizes.objectSize_pos (z : Sizes) : 0 < z.objectSize := by
  have := z.object_le
  omega

theorem objectAt_inj (h : z.objectAt a i = z.objectAt a j) : i = j := by
  have hpos := Sizes.objectSize_pos z
  rcases Nat.lt_trichotomy i j with hij | hij | hij
  · have := objectAt_lt (z := z) (a := a) hij
    omega
  · exact hij
  · have := objectAt_lt (z := z) (a := a) hij
    omega

theorem contains_objectAt (hi : i < p.capacity) : contains z a p (z.objectAt a i) = some i := by
  have hsub : z.objectAt a i - (a + z.headerSize) = i * z.objectSize := by
    unfold Sizes.objectAt
    omega
  unfold contains
  rw [hsub, Nat.mul_div_cancel _ (Sizes.objectSize_pos z), if_pos hi, if_pos]
  unfold Sizes.objectAt
  omega

/-- What a pool contains is on its pages. -/
theorem contains_bounds (h : z.Exact p.capacity) (hc : contains z a p o = some i) :
    a ≤ o ∧ o < a + z.poolSize p.capacity := by
  unfold contains at hc
  split at hc
  · next hge =>
    split at hc
    · next hlt =>
      have hle := Sizes.le_poolSize h.representable
      have hdiv := (Nat.div_lt_iff_lt_mul (Sizes.objectSize_pos z)).mp hlt
      rw [Nat.mul_comm] at hdiv
      omega
    · cases hc
  · cases hc

theorem Holds.congr (h : Holds z a p xs live) (hfirst : q.firstFreeObject = p.firstFreeObject)
    (hobjects : q.objects = p.objects) (hcount : q.freeCount = p.freeCount)
    (hcapacity : q.capacity = p.capacity)
    (hlive : ∀ i < p.capacity, z.objectAt a i ∈ live' ↔ z.objectAt a i ∈ live) :
    Holds z a q xs live' := by
  refine ⟨?_, hcount.trans h.count, h.nodup, ?_, ?_⟩
  · unfold ObjectPool.Free
    rw [hfirst, hobjects]
    exact h.free
  · rw [hcapacity]
    exact h.bound
  · rw [hcapacity]
    intro i hi
    rw [h.live i hi, hlive i hi]

namespace Inv

/-- Objects of two pools do not overlap. -/
theorem objects_apart (h : Inv cfg s l frees) (ha : a ∈ l) (hb : b ∈ l) (hab : a ≠ b)
    (hi : i < (s.pools a).capacity) (hj : j < (s.pools b).capacity) :
    cfg.sizes.objectAt a i + cfg.sizes.objectSize ≤ cfg.sizes.objectAt b j ∨
      cfg.sizes.objectAt b j + cfg.sizes.objectSize ≤ cfg.sizes.objectAt a i := by
  have hia := objectAt_bounds (a := a) (h.exact a ha) hi
  have hjb := objectAt_bounds (a := b) (h.exact b hb) hj
  rcases h.apart a ha b hb hab with hlt | hlt
  · exact Or.inl (by omega)
  · exact Or.inr (by omega)

theorem objects_ne (h : Inv cfg s l frees) (ha : a ∈ l) (hb : b ∈ l) (hab : a ≠ b)
    (hi : i < (s.pools a).capacity) (hj : j < (s.pools b).capacity) :
    cfg.sizes.objectAt a i ≠ cfg.sizes.objectAt b j := by
  have hpos := Sizes.objectSize_pos cfg.sizes
  rcases h.objects_apart ha hb hab hi hj with hlt | hlt
  · omega
  · omega

theorem toAccounted (h : Inv cfg s l frees) : Accounted cfg s l := by
  refine ⟨h.chain, h.distinct, ?_, ?_, fun a ha => ⟨frees a, h.holds a ha⟩, h.capacity,
    h.freeCount, h.poolCount⟩
  · refine h.nodup.imp_of_mem ?_
    intro o o' ho ho' hne
    obtain ⟨a, ha, i, hi, rfl⟩ := h.inside o ho
    obtain ⟨b, hb, j, hj, rfl⟩ := h.inside o' ho'
    by_cases hab : a = b
    · subst hab
      have hij : i ≠ j := by
        rintro rfl
        exact hne rfl
      rcases Nat.lt_or_gt_of_ne hij with hlt | hlt
      · exact Or.inl (objectAt_lt hlt)
      · exact Or.inr (objectAt_lt hlt)
    · exact h.objects_apart ha hb hab hi hj
  · intro o ho
    obtain ⟨a, ha, i, hi, rfl⟩ := h.inside o ho
    exact ⟨a, ha, objectAt_bounds (h.exact a ha) hi⟩

theorem initial (cfg : Config) : Inv cfg ObjectAllocator.initial [] fun _ => [] := by
  refine ⟨rfl, List.nodup_nil, ?_, ?_, ?_, List.nodup_nil, ?_, rfl, rfl, rfl, ?_⟩
  · intro a ha
    cases ha
  · intro a ha
    cases ha
  · intro a ha
    cases ha
  · intro o ho
    cases ho
  · intro _ o ho
    cases ho

/-! ### One pool changes -/

/-- A pool is replaced in place: it is as large as before or larger, and what is live changes
among its objects only. -/
theorem setPool (h : Inv cfg s l frees) (ha : a ∈ l)
    (hfirst : s'.firstPool = s.firstPool) (hpools : s'.pools = Function.update s.pools a q)
    (hnext : q.next = (s.pools a).next) (hexact : cfg.sizes.Exact q.capacity)
    (hle : (s.pools a).capacity ≤ q.capacity)
    (hapart : ∀ b ∈ l, b ≠ a → a + cfg.sizes.poolSize q.capacity ≤ b ∨
      b + cfg.sizes.poolSize (s.pools b).capacity ≤ a)
    (hholds : Holds cfg.sizes a q xs s'.live) (hnodup : s'.live.Nodup)
    (hother : ∀ o, (∀ i < q.capacity, o ≠ cfg.sizes.objectAt a i) → (o ∈ s'.live ↔ o ∈ s.live))
    (hcapacity : s'.capacity + (s.pools a).capacity = s.capacity + q.capacity)
    (hfree : s'.freeCount + (s.pools a).freeCount = s.freeCount + q.freeCount)
    (hcount : s'.poolCount = s.poolCount)
    (hbusy : cfg.busyBit = true → ∀ o ∈ s'.live, s'.busy o = true) :
    Inv cfg s' l (Function.update frees a xs) := by
  have hself : s'.pools a = q := by
    rw [hpools, Function.update_self]
  have hsame : ∀ b, b ≠ a → s'.pools b = s.pools b := by
    intro b hb
    rw [hpools, Function.update_of_ne hb]
  have hnext' : ∀ b ∈ l, (s'.pools b).next = (s.pools b).next := by
    intro b _
    by_cases hb : b = a
    · rw [hb, hself, hnext]
    · rw [hsame b hb]
  refine ⟨?_, h.distinct, ?_, ?_, ?_, hnodup, ?_, ?_, ?_, hcount.trans h.poolCount, hbusy⟩
  · unfold Chained
    rw [hfirst]
    exact (Linked.chain_congr hnext').mpr h.chain
  · intro b hb
    by_cases hba : b = a
    · rw [hba, hself]
      exact hexact
    · rw [hsame b hba]
      exact h.exact b hb
  · intro b hb c hc hbc
    by_cases hba : b = a
    · subst hba
      rw [hself, hsame c (Ne.symm hbc)]
      exact hapart c hc (Ne.symm hbc)
    · rw [hsame b hba]
      by_cases hca : c = a
      · subst hca
        rw [hself]
        exact (hapart b hb hba).symm
      · rw [hsame c hca]
        exact h.apart b hb c hc hbc
  · intro b hb
    by_cases hba : b = a
    · rw [hba, hself, Function.update_self]
      exact hholds
    · rw [hsame b hba, Function.update_of_ne hba]
      refine (h.holds b hb).congr rfl rfl rfl rfl fun i hi => hother _ fun j hj => ?_
      have hib := objectAt_bounds (a := b) (h.exact b hb) hi
      have hja := objectAt_bounds (a := a) hexact hj
      have hpos := Sizes.objectSize_pos cfg.sizes
      rcases hapart b hb hba with hlt | hlt
      · omega
      · omega
  · intro o ho
    by_cases hin : ∃ i < q.capacity, o = cfg.sizes.objectAt a i
    · obtain ⟨i, hi, rfl⟩ := hin
      exact ⟨a, ha, i, by rw [hself]; exact hi, rfl⟩
    · push Not at hin
      obtain ⟨b, hb, i, hi, rfl⟩ := h.inside o ((hother o hin).mp ho)
      have hba : b ≠ a := by
        rintro rfl
        exact hin i (hi.trans_le hle) rfl
      exact ⟨b, hb, i, by rw [hsame b hba]; exact hi, rfl⟩
  · have hsum := sum_update (f := fun b => (s.pools b).capacity)
      (g := fun b => (s'.pools b).capacity) ha h.distinct fun b _ hb => by rw [hsame b hb]
    have hold := h.capacity
    rw [hself] at hsum
    omega
  · have hsum := sum_update (f := fun b => (s.pools b).freeCount)
      (g := fun b => (s'.pools b).freeCount) ha h.distinct fun b _ hb => by rw [hsame b hb]
    have hold := h.freeCount
    rw [hself] at hsum
    omega

/-- A pool is added. -/
theorem addPool (h : Inv cfg s l frees) {l' : List ℕ} (hperm : l'.Perm (a :: l)) (ha : a ∉ l)
    (hchain : s'.Chained l') (hself : s'.pools a = q)
    (hsame : ∀ b ∈ l, ∃ next, s'.pools b = { s.pools b with next := next })
    (hexact : cfg.sizes.Exact q.capacity)
    (hapart : ∀ b ∈ l, a + cfg.sizes.poolSize q.capacity ≤ b ∨
      b + cfg.sizes.poolSize (s.pools b).capacity ≤ a)
    (hholds : Holds cfg.sizes a q xs s'.live) (hnodup : s'.live.Nodup)
    (hother : ∀ o, (∀ i < q.capacity, o ≠ cfg.sizes.objectAt a i) → (o ∈ s'.live ↔ o ∈ s.live))
    (hcapacity : s'.capacity = s.capacity + q.capacity)
    (hfree : s'.freeCount = s.freeCount + q.freeCount)
    (hcount : s'.poolCount = s.poolCount + 1)
    (hbusy : cfg.busyBit = true → ∀ o ∈ s'.live, s'.busy o = true) :
    Inv cfg s' l' (Function.update frees a xs) := by
  have hne : ∀ b ∈ l, b ≠ a := by
    rintro b hb rfl
    exact ha hb
  have hcap : ∀ b ∈ l, (s'.pools b).capacity = (s.pools b).capacity := by
    intro b hb
    obtain ⟨next, hb'⟩ := hsame b hb
    rw [hb']
  have hfreeCount : ∀ b ∈ l, (s'.pools b).freeCount = (s.pools b).freeCount := by
    intro b hb
    obtain ⟨next, hb'⟩ := hsame b hb
    rw [hb']
  have hmem : ∀ b ∈ l', b = a ∨ b ∈ l := fun b hb =>
    List.mem_cons.mp (hperm.mem_iff.mp hb)
  refine ⟨hchain, ?_, ?_, ?_, ?_, hnodup, ?_, ?_, ?_, ?_, hbusy⟩
  · exact hperm.nodup_iff.mpr (List.nodup_cons.mpr ⟨ha, h.distinct⟩)
  · intro b hb
    rcases hmem b hb with rfl | hb
    · rw [hself]
      exact hexact
    · rw [hcap b hb]
      exact h.exact b hb
  · intro b hb c hc hbc
    rcases hmem b hb with rfl | hb
    · rcases hmem c hc with rfl | hc
      · exact absurd rfl hbc
      · rw [hself, hcap c hc]
        exact hapart c hc
    · rw [hcap b hb]
      rcases hmem c hc with rfl | hc
      · rw [hself]
        exact (hapart b hb).symm
      · rw [hcap c hc]
        exact h.apart b hb c hc hbc
  · intro b hb
    rcases hmem b hb with rfl | hb
    · rw [hself, Function.update_self]
      exact hholds
    · obtain ⟨next, hb'⟩ := hsame b hb
      rw [hb', Function.update_of_ne (hne b hb)]
      refine (h.holds b hb).congr rfl rfl rfl rfl fun i hi => hother _ fun j hj => ?_
      have hib := objectAt_bounds (a := b) (h.exact b hb) hi
      have hja := objectAt_bounds (a := a) hexact hj
      have hpos := Sizes.objectSize_pos cfg.sizes
      rcases hapart b hb with hlt | hlt
      · omega
      · omega
  · intro o ho
    by_cases hin : ∃ i < q.capacity, o = cfg.sizes.objectAt a i
    · obtain ⟨i, hi, rfl⟩ := hin
      exact ⟨a, hperm.mem_iff.mpr List.mem_cons_self, i, by rw [hself]; exact hi, rfl⟩
    · push Not at hin
      obtain ⟨b, hb, i, hi, rfl⟩ := h.inside o ((hother o hin).mp ho)
      exact ⟨b, hperm.mem_iff.mpr (List.mem_cons_of_mem _ hb), i, by rw [hcap b hb]; exact hi, rfl⟩
  · rw [(hperm.map _).sum_eq, List.map_cons, List.sum_cons, hself, List.map_congr_left hcap,
      hcapacity, h.capacity]
    exact Nat.add_comm _ _
  · rw [(hperm.map _).sum_eq, List.map_cons, List.sum_cons, hself, List.map_congr_left hfreeCount,
      hfree, h.freeCount]
    exact Nat.add_comm _ _
  · rw [hperm.length_eq, hcount, h.poolCount]
    rfl

/-! ### Taking an object -/

/-- The objects of pages that no other pool is on are not live, but for those that the pool had
already. -/
theorem not_live (h : Inv cfg s l frees) (hexact : cfg.sizes.Exact q.capacity)
    (hapart : ∀ b ∈ l, b ≠ a → a + cfg.sizes.poolSize q.capacity ≤ b ∨
      b + cfg.sizes.poolSize (s.pools b).capacity ≤ a)
    (hi : i < q.capacity) (hnew : a ∈ l → (s.pools a).capacity ≤ i) :
    cfg.sizes.objectAt a i ∉ s.live := by
  intro hlive
  obtain ⟨b, hb, j, hj, heq⟩ := h.inside _ hlive
  by_cases hba : b = a
  · subst hba
    have hij := objectAt_inj heq
    have := hnew hb
    omega
  · have hia := objectAt_bounds (a := a) hexact hi
    have hjb := objectAt_bounds (a := b) (h.exact b hb) hj
    have hpos := Sizes.objectSize_pos cfg.sizes
    rcases hapart b hb hba with hlt | hlt
    · omega
    · omega

/-- The pages behind a pool are apart from the other pools if the pool is. -/
theorem apart_grow (h : Inv cfg s l frees) (ha : a ∈ l) {stop : ℕ}
    (hclear : s.Clear cfg l (a + cfg.sizes.poolSize (s.pools a).capacity) stop) :
    ∀ b ∈ l, b ≠ a → stop ≤ b ∨ b + cfg.sizes.poolSize (s.pools b).capacity ≤ a := by
  intro b hb hba
  have hsize := Sizes.le_poolSize (h.exact b hb).representable
  have hheader := cfg.sizes.header_le
  rcases h.apart a ha b hb (Ne.symm hba) with hlt | hlt
  · rcases hclear b hb with hlt' | hlt'
    · omega
    · exact Or.inl hlt'
  · exact Or.inr hlt

theorem freeCount_le (h : Inv cfg s l frees) (ha : a ∈ l) :
    (s.pools a).freeCount ≤ s.freeCount := by
  rw [h.freeCount]
  exact List.single_le_sum (fun _ _ => Nat.zero_le _) _ (List.mem_map_of_mem ha)

end Inv

theorem setBusy_of_mem (hbusy : cfg.busyBit = true → ∀ o ∈ s.live, s.busy o = true) :
    cfg.busyBit = true → ∀ o' ∈ o :: s.live, (s.setBusy cfg o true).busy o' = true := by
  intro hbit o' ho'
  unfold setBusy
  rw [if_pos hbit]
  show Function.update s.busy o true o' = true
  by_cases heq : o' = o
  · rw [heq, Function.update_self]
  · rw [Function.update_of_ne heq]
    exact hbusy hbit o' (List.mem_of_ne_of_mem heq ho')

/-- The first of the free objects of a pool. -/
theorem Holds.first (h : Holds z a p (i :: xs) live) : p.firstFreeObject = i :=
  ((Linked.link_eq_some).mp h.free.1).1

/-- It is taken out of the list. -/
theorem Holds.pop (h : Holds z a p (i :: xs) live) :
    Holds z a (ObjectAllocator.pop p) xs (z.objectAt a i :: live) := by
  obtain ⟨hi, hnodup⟩ := List.nodup_cons.mp h.nodup
  refine ⟨?_, ?_, hnodup, fun j hj => h.bound j (List.mem_cons_of_mem _ hj), ?_⟩
  · have hrest := h.free.2
    rw [← h.first] at hrest
    exact hrest
  · show p.freeCount - 1 = xs.length
    rw [h.count, List.length_cons, Nat.add_sub_cancel]
  · intro j hj
    have hold := h.live j hj
    by_cases hji : j = i
    · subst hji
      simp [hi]
    · have hne : z.objectAt a j ≠ z.objectAt a i := fun heq => hji (objectAt_inj heq)
      rw [List.mem_cons, or_iff_right hji] at hold
      rw [hold, List.mem_cons, or_iff_right hne]

/-- A full pool that has grown: the new objects are free. -/
theorem Holds.grow (h : Holds z a p [] live) (hlt : p.capacity < q.capacity)
    (hfree : q.Free (List.range' p.capacity (q.capacity - p.capacity)))
    (hcount : q.freeCount = q.capacity - p.capacity)
    (hnew : ∀ i < q.capacity, p.capacity ≤ i → z.objectAt a i ∉ live) :
    Holds z a q (List.range' p.capacity (q.capacity - p.capacity)) live := by
  have hmem : ∀ i, i ∈ List.range' p.capacity (q.capacity - p.capacity) ↔
      p.capacity ≤ i ∧ i < q.capacity := by
    intro i
    rw [List.mem_range'_1]
    omega
  refine ⟨hfree, ?_, List.nodup_range', fun i hi => ((hmem i).mp hi).2, ?_⟩
  · rw [hcount, List.length_range']
  · intro i hi
    rw [hmem]
    by_cases hpi : p.capacity ≤ i
    · exact iff_of_true ⟨hpi, hi⟩ (hnew i hi hpi)
    · have hold := h.live i (by omega)
      refine iff_of_false (fun hin => hpi hin.1) ?_
      rw [← hold]
      exact List.not_mem_nil

/-- A pool that has become full stays so, or grows. -/
theorem Holds.refill (h : Holds z a p [] live) {estimatedLeft : ℕ} {granted : Bool}
    (hz : cfg.sizes = z) (hexact : z.Exact p.capacity)
    (hgrow : cfg.enlarges = true → Growable z p.capacity estimatedLeft granted)
    (hnew : granted = true → ∀ q : ObjectPool, z.Exact q.capacity →
      z.poolSize q.capacity = z.poolSize (p.capacity + estimatedLeft) →
      ∀ i < q.capacity, p.capacity ≤ i → z.objectAt a i ∉ live) :
    ∃ q xs, ObjectAllocator.refill cfg estimatedLeft granted p = some q ∧ Holds z a q xs live ∧
      q.next = p.next ∧
      ((q.capacity = p.capacity ∧ q.freeCount = 0) ∨
        (granted = true ∧ p.capacity < q.capacity ∧ z.Exact q.capacity ∧
          z.poolSize q.capacity = z.poolSize (p.capacity + estimatedLeft))) := by
  have hfull : Holds z a { p with lastFreeObject := objIndInvalid } [] live :=
    h.congr rfl rfl rfl rfl fun _ _ => Iff.rfl
  have hzero : p.freeCount = 0 := h.count
  unfold ObjectAllocator.refill
  dsimp only
  cases henlarges : cfg.enlarges with
  | false => exact ⟨_, [], rfl, hfull, rfl, Or.inl ⟨rfl, hzero⟩⟩
  | true =>
      obtain ⟨hextra, hrep, hbound⟩ := hgrow henlarges
      rw [if_pos rfl, hz]
      rcases ObjectPool.enlarge_spec (p := { p with lastFreeObject := objIndInvalid }) hexact hzero
        hextra hrep hbound with
        ⟨-, heq⟩ | ⟨q, hgranted, heq, hlt, hexact', hsize, hcount, hnext, hfree⟩
      · exact ⟨_, [], heq, hfull, rfl, Or.inl ⟨rfl, hzero⟩⟩
      · exact ⟨q, _, heq, hfull.grow hlt hfree hcount (hnew hgranted q hexact' hsize), hnext,
          Or.inr ⟨hgranted, hlt, hexact', hsize⟩⟩

/-- The pool from which an object is handed out. -/
theorem Inv.handOut (h : Inv cfg s l frees) (ha : a ∈ l) (hi : i < (s.pools a).capacity)
    (hlive : cfg.sizes.objectAt a i ∉ s.live) {capacity freeCount : ℕ}
    (hnext : q.next = (s.pools a).next) (hexact : cfg.sizes.Exact q.capacity)
    (hle : (s.pools a).capacity ≤ q.capacity)
    (hapart : ∀ b ∈ l, b ≠ a → a + cfg.sizes.poolSize q.capacity ≤ b ∨
      b + cfg.sizes.poolSize (s.pools b).capacity ≤ a)
    (hholds : Holds cfg.sizes a q xs (cfg.sizes.objectAt a i :: s.live))
    (hcapacity : capacity + (s.pools a).capacity = s.capacity + q.capacity)
    (hfree : freeCount - 1 + (s.pools a).freeCount = s.freeCount + q.freeCount) :
    Inv cfg { ({ s with capacity := capacity, freeCount := freeCount }.handOut cfg
        (cfg.sizes.objectAt a i) a q).2 with live := cfg.sizes.objectAt a i :: s.live } l
      (Function.update frees a xs) := by
  refine h.setPool ha rfl rfl hnext hexact hle hapart hholds
    (List.nodup_cons.mpr ⟨hlive, h.nodup⟩) ?_ hcapacity hfree rfl (setBusy_of_mem h.busy)
  intro o ho
  have hne : o ≠ cfg.sizes.objectAt a i := ho i (hi.trans_le hle)
  rw [List.mem_cons, or_iff_right hne]

/-- An object is taken from a pool with a free one. -/
theorem Inv.takeFrom (h : Inv cfg s l frees) (ha : a ∈ l) (hpos : (s.pools a).freeCount ≠ 0)
    {estimatedLeft : ℕ} {granted : Bool}
    (hclear : granted = true → s.Clear cfg l (a + cfg.sizes.poolSize (s.pools a).capacity)
      (a + cfg.sizes.poolSize ((s.pools a).capacity + estimatedLeft)))
    (hgrow : (s.pools a).freeCount = 1 → cfg.enlarges = true →
      Growable cfg.sizes (s.pools a).capacity estimatedLeft granted) :
    ∃ o s', s.takeFrom cfg estimatedLeft granted a = some (.ok o, s') ∧ s'.live = s.live ∧
      ∃ frees', Inv cfg { s' with live := o :: s.live } l frees' := by
  have hholds := h.holds a ha
  obtain ⟨i, xs, hxs⟩ : ∃ i xs, frees a = i :: xs := by
    cases hfrees : frees a with
    | nil =>
        rw [hfrees] at hholds
        exact absurd hholds.count hpos
    | cons i xs => exact ⟨i, xs, rfl⟩
  rw [hxs] at hholds
  have hi := hholds.bound i List.mem_cons_self
  have hlive : cfg.sizes.objectAt a i ∉ s.live := (hholds.live i hi).mp List.mem_cons_self
  have hpop := hholds.pop
  have hle := h.freeCount_le ha
  have hself : ∀ b ∈ l, b ≠ a → a + cfg.sizes.poolSize (s.pools a).capacity ≤ b ∨
      b + cfg.sizes.poolSize (s.pools b).capacity ≤ a := fun b hb hba =>
    h.apart a ha b hb (Ne.symm hba)
  have hexact := h.exact a ha
  unfold ObjectAllocator.takeFrom
  dsimp only
  rw [hholds.first]
  split
  · next hlast =>
    have hxs' : xs = [] := by
      have hcount := hpop.count
      rw [hlast] at hcount
      exact List.eq_nil_of_length_eq_zero hcount.symm
    subst hxs'
    have hone : (s.pools a).freeCount = 1 := by
      have hlast' : (s.pools a).freeCount - 1 = 0 := hlast
      omega
    obtain ⟨q, ys, heq, hq, hnext, hcases⟩ := hpop.refill rfl hexact (hgrow hone)
      fun hgranted q hexact' hsize j hj hnew => by
        have hapart : ∀ b ∈ l, b ≠ a → a + cfg.sizes.poolSize q.capacity ≤ b ∨
            b + cfg.sizes.poolSize (s.pools b).capacity ≤ a := by
          rw [hsize]
          exact h.apart_grow ha (hclear hgranted)
        rw [List.mem_cons, not_or]
        refine ⟨fun heq => ?_, h.not_live hexact' hapart hj fun _ => hnew⟩
        have hnew' : (s.pools a).capacity ≤ j := hnew
        have := objectAt_inj heq
        omega
    rw [heq, Option.map_some]
    rcases hcases with ⟨hcap, hzero⟩ | ⟨hgranted, hlt, hexact', hsize⟩
    · rw [if_neg (not_not.mpr hcap)]
      have hcap' : q.capacity = (s.pools a).capacity := hcap
      refine ⟨_, _, rfl, rfl, _, h.handOut ha hi hlive hnext ?_ hcap'.ge ?_ hq ?_ ?_⟩
      · rw [hcap']
        exact hexact
      · rw [hcap']
        exact hself
      · rw [hcap']
      · omega
    · rw [if_pos hlt.ne']
      have hlt' : (s.pools a).capacity < q.capacity := hlt
      have hapart : ∀ b ∈ l, b ≠ a → a + cfg.sizes.poolSize q.capacity ≤ b ∨
          b + cfg.sizes.poolSize (s.pools b).capacity ≤ a := by
        rw [hsize]
        exact h.apart_grow ha (hclear hgranted)
      refine ⟨_, _, rfl, rfl, _, h.handOut ha hi hlive hnext hexact' hlt'.le hapart hq ?_ ?_⟩
      · show s.capacity + (q.capacity - (s.pools a).capacity) + (s.pools a).capacity =
          s.capacity + q.capacity
        omega
      · omega
  · next hmore =>
    refine ⟨_, _, rfl, rfl, _, h.handOut ha hi hlive rfl hexact le_rfl hself hpop rfl ?_⟩
    show s.freeCount - 1 + (s.pools a).freeCount = s.freeCount + ((s.pools a).freeCount - 1)
    omega

/-! ### A new pool -/

/-- A pool that has just been acquired for so many objects. -/
structure Fresh (z : Sizes) (n : ℕ) (p : ObjectPool) : Prop where
  pos : 0 < p.capacity
  exact : z.Exact p.capacity
  size : z.poolSize p.capacity = z.poolSize n
  count : p.freeCount = p.capacity
  capacity : p.capacity = z.objectCount (z.poolSize n)
  free : p.Free (List.range' 0 p.capacity)

theorem Suitable.acquire {n : ℕ} (h : Suitable z n) :
    ∃ p, ObjectPool.acquire z n = some p ∧ Fresh z n p := by
  obtain ⟨p, hp, hpos, hexact, hsize, hcount, hcap, hfree⟩ :=
    ObjectPool.acquire_spec h.representable h.pos h.bound
  exact ⟨p, hp, hpos, hexact, hsize, hcount, hcap, hfree⟩

theorem Fresh.holds {n : ℕ} (h : Fresh z n p) (hnew : ∀ i < p.capacity, z.objectAt a i ∉ live) :
    Holds z a p (List.range' 0 p.capacity) live := by
  refine ⟨h.free, ?_, List.nodup_range', ?_, ?_⟩
  · rw [h.count, List.length_range']
  · intro i hi
    rw [List.mem_range'_1] at hi
    omega
  · intro i hi
    refine iff_of_true ?_ (hnew i hi)
    rw [List.mem_range'_1]
    omega

theorem Inv.setBusyCount (h : Inv cfg s l frees) (n : ℕ) :
    Inv cfg { s with busyCount := n } l frees :=
  ⟨h.chain, h.distinct, h.exact, h.apart, h.holds, h.nodup, h.inside, h.capacity, h.freeCount,
    h.poolCount, h.busy⟩

/-- Pages that are clear of all pools are apart from them. -/
theorem Inv.apart_new (h : Inv cfg s l frees) {n : ℕ} (hp : Fresh cfg.sizes n p)
    (hclear : s.Clear cfg l a (a + cfg.sizes.poolSize n)) :
    a ∉ l ∧ ∀ b ∈ l, a + cfg.sizes.poolSize p.capacity ≤ b ∨
      b + cfg.sizes.poolSize (s.pools b).capacity ≤ a := by
  have hsize := Sizes.le_poolSize hp.exact.representable
  have hheader := cfg.sizes.header_le
  rw [← hp.size] at hclear
  refine ⟨fun ha => ?_, fun b hb => (hclear b hb).symm⟩
  have hold := Sizes.le_poolSize (h.exact a ha).representable
  rcases hclear a ha with hlt | hlt
  · omega
  · omega

theorem Inv.plug (h : Inv cfg s l frees) {n : ℕ} (hp : Fresh cfg.sizes n p)
    (hclear : s.Clear cfg l a (a + cfg.sizes.poolSize n)) :
    Inv cfg (s.plug a p) (a :: l) (Function.update frees a (List.range' 0 p.capacity)) := by
  obtain ⟨ha, hapart⟩ := h.apart_new hp hclear
  have hself : (s.plug a p).pools a = { p with next := s.firstPool } := Function.update_self _ _ _
  have hsame : ∀ b ∈ l, (s.plug a p).pools b = s.pools b := by
    intro b hb
    refine Function.update_of_ne ?_ _ _
    rintro rfl
    exact ha hb
  refine h.addPool (List.Perm.refl _) ha ⟨rfl, ?_⟩ hself ?_ hp.exact hapart ?_ h.nodup
    (fun _ _ => Iff.rfl) rfl rfl rfl h.busy
  · show Linked.Chain _ ((s.plug a p).pools a).next l
    rw [hself]
    exact (Linked.chain_congr fun b hb => by rw [hsame b hb]).mpr h.chain
  · intro b hb
    exact ⟨(s.pools b).next, hsame b hb⟩
  · refine (hp.holds fun i hi => ?_).congr rfl rfl rfl rfl fun _ _ => Iff.rfl
    exact h.not_live hp.exact (fun b hb _ => hapart b hb) hi fun hmem => absurd hmem ha

/-- A new pool at the end of the chain hands out its first object at once. -/
theorem Inv.append (h : Inv cfg s l frees) {n last : ℕ} (hp : Fresh cfg.sizes n p)
    (hclear : s.Clear cfg l a (a + cfg.sizes.poolSize n)) (hlast : l.getLast? = some last)
    (hnext : (s.pools last).next = none) :
    ∃ o s' l' frees', ObjectAllocator.append cfg last a s p = (.ok o, s') ∧ s'.live = s.live ∧
      Inv cfg { s' with live := o :: s.live } l' frees' := by
  obtain ⟨ha, hapart⟩ := h.apart_new hp hclear
  obtain ⟨front, rfl⟩ := List.getLast?_eq_some_iff.mp hlast
  have hla : last ≠ a := by
    rintro rfl
    exact ha (by simp)
  have hnew : ∀ i < p.capacity, cfg.sizes.objectAt a i ∉ s.live := fun i hi =>
    h.not_live hp.exact (fun b hb _ => hapart b hb) hi fun hmem => absurd hmem ha
  have hholds := hp.holds hnew
  obtain ⟨cap, hcap⟩ : ∃ cap, p.capacity = cap + 1 := ⟨p.capacity - 1, by have := hp.pos; omega⟩
  rw [hcap, List.range'_succ] at hholds
  have hfirst := hholds.first
  have hpop := hholds.pop
  refine ⟨_, _, front ++ [last] ++ [a], Function.update frees a (List.range' (0 + 1) cap), rfl,
    rfl, ?_⟩
  rw [hfirst]
  have hself : ∀ b, (ObjectAllocator.append cfg last a s p).2.pools b =
      if b = a then { pop p with next := none }
      else if b = last then { s.pools last with next := some a } else s.pools b := by
    intro b
    show Function.update (Function.update s.pools last _) a
      { pop p with next := (s.pools last).next } b = _
    by_cases hba : b = a
    · rw [hba, Function.update_self, if_pos rfl, hnext]
    · rw [Function.update_of_ne hba, if_neg hba]
      by_cases hbl : b = last
      · rw [hbl, Function.update_self, if_pos rfl]
      · rw [Function.update_of_ne hbl, if_neg hbl]
  have hpools : ∀ b ∈ front ++ [last], b ≠ a := by
    rintro b hb rfl
    exact ha hb
  refine h.addPool (a := a) (q := { pop p with next := none }) ?_ ha ?_ ?_ ?_ hp.exact hapart
    (hpop.congr rfl rfl rfl rfl fun _ _ => Iff.rfl)
    (List.nodup_cons.mpr ⟨hnew 0 hp.pos, h.nodup⟩) ?_ rfl rfl rfl (setBusy_of_mem h.busy)
  · exact List.perm_append_singleton a _
  · refine Linked.Chain.concat h.chain ?_ ?_ ?_
    · intro b hb
      have hbl : b ≠ last := by
        rintro rfl
        exact (List.nodup_append.mp h.distinct).2.2 b hb b (by simp) rfl
      show ((ObjectAllocator.append cfg last a s p).2.pools b).next = _
      rw [hself, if_neg (hpools b (List.mem_append_left _ hb)), if_neg hbl]
    · show ((ObjectAllocator.append cfg last a s p).2.pools last).next = _
      rw [hself, if_neg hla, if_pos rfl]
    · show ((ObjectAllocator.append cfg last a s p).2.pools a).next = _
      rw [hself, if_pos rfl]
  · show (ObjectAllocator.append cfg last a s p).2.pools a = _
    rw [hself, if_pos rfl]
  · intro b hb
    by_cases hbl : b = last
    · refine ⟨some a, ?_⟩
      show (ObjectAllocator.append cfg last a s p).2.pools b = _
      rw [hself, if_neg (hpools b hb), if_pos hbl, hbl]
    · refine ⟨(s.pools b).next, ?_⟩
      show (ObjectAllocator.append cfg last a s p).2.pools b = _
      rw [hself, if_neg (hpools b hb), if_neg hbl]
  · intro o ho
    have hne : o ≠ cfg.sizes.objectAt a 0 := ho 0 hp.pos
    rw [List.mem_cons, or_iff_right hne]

/-! ### `AllocateObject` -/

theorem search_spec {pools : ℕ → ObjectPool} {fuel current : ℕ}
    (hchain : Linked.Chain (fun b => (pools b).next) (some current) l) (hfuel : l.length ≤ fuel) :
    match l.find? fun b => (pools b).freeCount ≠ 0 with
    | some b => search pools fuel current = .found b
    | none => ∃ last, l.getLast? = some last ∧ (pools last).next = none ∧
        search pools fuel current = .exhausted last := by
  induction l generalizing fuel current with
  | nil => cases hchain
  | cons b l ih =>
      obtain ⟨hb, hrest⟩ := hchain
      obtain rfl : current = b := Option.some.inj hb
      obtain ⟨fuel, rfl⟩ : ∃ k, fuel = k + 1 :=
        ⟨fuel - 1, by rw [List.length_cons] at hfuel; omega⟩
      rw [List.length_cons] at hfuel
      rw [search]
      by_cases hfree : (pools current).freeCount = 0
      · rw [List.find?_cons_of_neg (by simp [hfree]), if_pos hfree]
        cases l with
        | nil =>
            have hnext : (pools current).next = none := hrest
            rw [hnext]
            exact ⟨current, rfl, hnext, rfl⟩
        | cons c l =>
            have hnext : (pools current).next = some c := hrest.1
            have hchain : Linked.Chain (fun b => (pools b).next) (some c) (c :: l) :=
              ⟨rfl, hrest.2⟩
            have hih := ih hchain (Nat.le_of_succ_le_succ hfuel)
            rw [hnext, List.getLast?_cons_cons]
            exact hih
      · rw [List.find?_cons_of_pos (by simp [hfree]), if_neg hfree]

/-- What `AllocateObject` leaves behind, once its result is live. -/
def Allocated (cfg : Config) (live : List ℕ) :
    Except HandleResult ℕ × ObjectAllocator → Prop
  | (.ok o, s') => s'.live = live ∧ ∃ l frees, Inv cfg { s' with live := o :: live } l frees
  | (.error _, s') => ∃ l frees, Inv cfg s' l frees

/-- With an empty chain a pool is acquired. -/
theorem Inv.allocate_first (h : Inv cfg s [] frees) {estimatedLeft : ℕ} {granted : Bool}
    (hsuit : Suitable cfg.sizes (min estimatedLeft 2))
    (hone : cfg.sizes.objectCount (cfg.sizes.poolSize (min estimatedLeft 2)) = 1 →
      cfg.enlarges = true → Growable cfg.sizes 1 estimatedLeft granted) :
    ∃ p r, ObjectPool.acquire cfg.sizes (min estimatedLeft 2) = some p ∧
      (s.plug a p).takeFrom cfg estimatedLeft granted a = some r ∧ Allocated cfg s.live r := by
  obtain ⟨p, hp, hfresh⟩ := hsuit.acquire
  have hplug := h.plug (a := a) hfresh nofun
  have hself : (s.plug a p).pools a = { p with next := s.firstPool } := Function.update_self _ _ _
  have hpos := hfresh.pos
  have hcount := hfresh.count
  have hsome : ((s.plug a p).pools a).freeCount ≠ 0 := by
    rw [hself]
    show p.freeCount ≠ 0
    omega
  have hclear : granted = true → (s.plug a p).Clear cfg [a]
      (a + cfg.sizes.poolSize ((s.plug a p).pools a).capacity)
      (a + cfg.sizes.poolSize (((s.plug a p).pools a).capacity + estimatedLeft)) := by
    intro _ b hb
    rw [List.mem_singleton.mp hb]
    exact Or.inl le_rfl
  have hgrow : ((s.plug a p).pools a).freeCount = 1 → cfg.enlarges = true →
      Growable cfg.sizes ((s.plug a p).pools a).capacity estimatedLeft granted := by
    intro hlast henlarges
    rw [hself] at hlast ⊢
    have hlast' : p.freeCount = 1 := hlast
    have hcap : p.capacity = 1 := hcount.symm.trans hlast'
    show Growable cfg.sizes p.capacity estimatedLeft granted
    rw [hcap]
    refine hone ?_ henlarges
    rw [← hfresh.capacity, hcap]
  obtain ⟨o, s', heq, hlive, frees', hinv⟩ :=
    hplug.takeFrom List.mem_cons_self hsome hclear hgrow
  exact ⟨p, _, hp, heq, hlive, _, frees', hinv⟩

theorem Inv.acquireFirst (h : Inv cfg s [] frees) {estimatedLeft : ℕ} {acquired : Option ℕ}
    {granted : Bool} (hroom : acquired = none ∨ Suitable cfg.sizes (min estimatedLeft 2) ∧
      (cfg.sizes.objectCount (cfg.sizes.poolSize (min estimatedLeft 2)) = 1 →
        cfg.enlarges = true → Growable cfg.sizes 1 estimatedLeft granted)) :
    ∃ r, s.acquireFirst cfg estimatedLeft acquired granted = some r ∧
      Allocated cfg s.live r := by
  cases acquired with
  | none => exact ⟨_, rfl, _, _, h⟩
  | some a =>
      obtain ⟨hsuit, hone⟩ := hroom.resolve_left nofun
      obtain ⟨p, r, hp, htake, hr⟩ := h.allocate_first (a := a) hsuit hone
      refine ⟨r, ?_, hr⟩
      unfold ObjectAllocator.acquireFirst
      dsimp only
      rw [hp, Option.bind_some]
      exact htake

theorem Inv.acquireNext (h : Inv cfg s l frees) {estimatedLeft last : ℕ} {acquired : Option ℕ}
    (hlast : l.getLast? = some last) (hnext : (s.pools last).next = none)
    (hopen : ∀ a, acquired = some a →
      s.Clear cfg l a (a + cfg.sizes.poolSize (min estimatedLeft 2)))
    (hroom : acquired = none ∨ Suitable cfg.sizes (min estimatedLeft 2)) :
    ∃ r, s.acquireNext cfg estimatedLeft acquired last = some r ∧ Allocated cfg s.live r := by
  cases acquired with
  | none => exact ⟨_, rfl, _, _, h.setBusyCount _⟩
  | some a =>
      obtain ⟨p, hp, hfresh⟩ := (hroom.resolve_left nofun).acquire
      obtain ⟨o, s', l', frees', heq, hlive, hinv⟩ := h.append hfresh (hopen a rfl) hlast hnext
      refine ⟨(.ok o, s'), ?_, hlive, l', frees', hinv⟩
      unfold ObjectAllocator.acquireNext
      dsimp only
      rw [hp, Option.map_some, heq]

/-- What the heap and the condition say of `AllocateObject` below the quota. -/
theorem Inv.allocateBelow (h : Inv cfg s l frees) {estimatedLeft : ℕ} {acquired : Option ℕ}
    {granted : Bool}
    (hopen : match s.candidate l with
      | some a => granted = true →
          s.Clear cfg l (a + cfg.sizes.poolSize (s.pools a).capacity)
            (a + cfg.sizes.poolSize ((s.pools a).capacity + estimatedLeft))
      | none => ∀ a, acquired = some a →
          s.Clear cfg l a (a + cfg.sizes.poolSize (min estimatedLeft 2)))
    (hroom : match s.candidate l with
      | some a => (s.pools a).freeCount = 1 → cfg.enlarges = true →
          Growable cfg.sizes (s.pools a).capacity estimatedLeft granted
      | none => acquired = none ∨
          Suitable cfg.sizes (min estimatedLeft 2) ∧
            (l = [] → cfg.sizes.objectCount (cfg.sizes.poolSize (min estimatedLeft 2)) = 1 →
              cfg.enlarges = true → Growable cfg.sizes 1 estimatedLeft granted)) :
    ∃ r, s.allocateBelow cfg estimatedLeft acquired granted = some r ∧
      Allocated cfg s.live r := by
  have hchain := h.chain
  rw [Chained] at hchain
  unfold ObjectAllocator.allocateBelow
  cases hfirst : s.firstPool with
  | none =>
      rw [hfirst] at hchain
      obtain rfl : l = [] := by
        cases l with
        | nil => rfl
        | cons b l => cases hchain.1
      have hcand : s.candidate [] = none := rfl
      rw [hcand] at hroom
      exact h.acquireFirst (hroom.imp_right fun hr => ⟨hr.1, hr.2 rfl⟩)
  | some first =>
      rw [hfirst] at hchain
      have hsearch := search_spec hchain h.poolCount.ge
      have hcand : s.candidate l = l.find? fun b => (s.pools b).freeCount ≠ 0 := rfl
      rw [← hcand] at hsearch
      cases hc : s.candidate l with
      | some a =>
          rw [hc] at hsearch hopen hroom
          have ha : a ∈ l := List.mem_of_find?_eq_some hc
          have hsome : (s.pools a).freeCount ≠ 0 := by simpa using List.find?_some hc
          obtain ⟨o, s', heq, hlive, frees', hinv⟩ := h.takeFrom ha hsome hopen hroom
          refine ⟨(.ok o, s'), ?_, hlive, l, frees', hinv⟩
          dsimp only at hsearch ⊢
          rw [hsearch]
          exact heq
      | none =>
          rw [hc] at hsearch hopen hroom
          obtain ⟨last, hlast, hnext, heq⟩ := hsearch
          obtain ⟨r, hr, hallocated⟩ :=
            h.acquireNext hlast hnext hopen (hroom.imp_right fun hr => hr.1)
          refine ⟨r, ?_, hallocated⟩
          dsimp only
          rw [heq]
          exact hr

theorem Inv.allocateObject (h : Inv cfg s l frees) {estimatedLeft : ℕ} {acquired : Option ℕ}
    {granted : Bool} (henabled : s.Enabled cfg (.allocate estimatedLeft acquired granted))
    (hfit : s.Fit cfg (.allocate estimatedLeft acquired granted)) :
    ∃ r, s.allocateObject cfg estimatedLeft acquired granted = some r ∧
      Allocated cfg s.live r := by
  unfold ObjectAllocator.allocateObject
  by_cases hquota : s.busyCount ≥ cfg.quota
  · rw [if_pos hquota]
    exact ⟨_, rfl, l, frees, h⟩
  · rw [if_neg hquota]
    obtain ⟨l', hl', hroom⟩ := hfit.resolve_left hquota
    obtain rfl := hl'.unique h.chain
    exact (h.setBusyCount (s.busyCount + 1)).allocateBelow (henabled l' h.chain) hroom

theorem Inv.allocate (h : Inv cfg s l frees) {estimatedLeft : ℕ} {acquired : Option ℕ}
    {granted : Bool} (henabled : s.Enabled cfg (.allocate estimatedLeft acquired granted))
    (hfit : s.Fit cfg (.allocate estimatedLeft acquired granted)) :
    ∃ s' l' frees', s.perform cfg (.allocate estimatedLeft acquired granted) = some s' ∧
      Inv cfg s' l' frees' := by
  obtain ⟨⟨result, s'⟩, hr, hallocated⟩ := h.allocateObject henabled hfit
  unfold perform
  dsimp only
  rw [hr, Option.map_some]
  cases result with
  | ok o =>
      obtain ⟨hlive, l', frees', hinv⟩ := hallocated
      rw [← hlive] at hinv
      exact ⟨_, l', frees', rfl, hinv⟩
  | error e =>
      obtain ⟨l', frees', hinv⟩ := hallocated
      exact ⟨_, l', frees', rfl, hinv⟩

/-! ### `ForceExpand` -/

theorem Inv.forceExpand (h : Inv cfg s l frees) {estimate : ℕ} {acquired : Option ℕ}
    (henabled : s.Enabled cfg (.forceExpand estimate acquired))
    (hfit : s.Fit cfg (.forceExpand estimate acquired)) :
    ∃ s' l' frees', s.perform cfg (.forceExpand estimate acquired) = some s' ∧
      Inv cfg s' l' frees' := by
  unfold perform ObjectAllocator.forceExpand
  dsimp only
  by_cases hquota : s.busyCount ≥ cfg.quota
  · rw [if_pos hquota]
    exact ⟨s, l, frees, rfl, h⟩
  · rw [if_neg hquota]
    cases acquired with
    | none => exact ⟨s, l, frees, rfl, h⟩
    | some a =>
        obtain ⟨p, hp, hfresh⟩ := ((hfit.resolve_left hquota).resolve_left nofun).acquire
        dsimp only
        rw [hp]
        exact ⟨_, _, _, rfl, h.plug hfresh (henabled l h.chain a rfl)⟩

/-! ### `DeallocateObject` -/

/-- The loop comes to the pool of a live object, and to its index. -/
theorem find_spec {pools : ℕ → ObjectPool} {fuel current : ℕ} {previous : Option ℕ}
    {front back : List ℕ}
    (hchain : Linked.Chain (fun b => (pools b).next) (some current) (front ++ a :: back))
    (hfuel : (front ++ a :: back).length ≤ fuel)
    (hfront : ∀ b ∈ front, contains z b (pools b) o = none)
    (ha : contains z a (pools a) o = some i) :
    find z pools o fuel previous current = .found (front.getLast?.or previous) a i := by
  induction front generalizing fuel current previous with
  | nil =>
      obtain ⟨hcurrent, -⟩ := hchain
      obtain rfl : current = a := Option.some.inj hcurrent
      obtain ⟨fuel, rfl⟩ : ∃ k, fuel = k + 1 :=
        ⟨fuel - 1, by rw [List.nil_append, List.length_cons] at hfuel; omega⟩
      rw [find, ha]
      rfl
  | cons b front ih =>
      obtain ⟨hcurrent, hrest⟩ := hchain
      obtain rfl : current = b := Option.some.inj hcurrent
      rw [List.cons_append, List.length_cons] at hfuel
      obtain ⟨fuel, rfl⟩ : ∃ k, fuel = k + 1 := ⟨fuel - 1, by omega⟩
      have hlast : ((current :: front).getLast?.or previous) =
          front.getLast?.or (some current) := by
        cases front with
        | nil => rfl
        | cons c front =>
            rw [List.getLast?_cons_cons]
            cases hlast : (c :: front).getLast? with
            | none => cases List.getLast?_eq_none_iff.mp hlast
            | some d => rfl
      have hnext : ∃ temp, (pools current).next = some temp := by
        cases front with
        | nil => exact ⟨a, hrest.1⟩
        | cons c front => exact ⟨c, hrest.1⟩
      obtain ⟨temp, htemp⟩ := hnext
      have hchain : Linked.Chain (fun b => (pools b).next) (some temp) (front ++ a :: back) := by
        rw [← htemp]
        exact hrest
      rw [find, hfront current List.mem_cons_self, htemp, hlast]
      exact ih hchain (Nat.le_of_succ_le_succ hfuel) fun c hc =>
        hfront c (List.mem_cons_of_mem _ hc)

/-- The object is not in the other pools. -/
theorem Inv.contains_none (h : Inv cfg s l frees) (ha : a ∈ l) (hb : b ∈ l) (hba : b ≠ a)
    (hi : i < (s.pools a).capacity) :
    contains cfg.sizes b (s.pools b) (cfg.sizes.objectAt a i) = none := by
  cases hc : contains cfg.sizes b (s.pools b) (cfg.sizes.objectAt a i) with
  | none => rfl
  | some j =>
      have hbounds := contains_bounds (h.exact b hb) hc
      have hia := objectAt_bounds (a := a) (h.exact a ha) hi
      have hpos := Sizes.objectSize_pos cfg.sizes
      rcases h.apart a ha b hb (Ne.symm hba) with hlt | hlt
      · omega
      · omega

/-- The object becomes the first of the free ones. -/
theorem Holds.push (h : Holds z a p xs live) (hexact : z.Exact p.capacity)
    (hi : i < p.capacity) (hout : i ∉ xs) (hlive : live.Nodup) :
    Holds z a { p with objects := Function.update p.objects i p.firstFreeObject
                       firstFreeObject := i, freeCount := p.freeCount + 1 } (i :: xs)
      (live.erase (z.objectAt a i)) := by
  have hbound := hexact.bound
  refine ⟨⟨?_, ?_⟩, ?_, List.nodup_cons.mpr ⟨hout, h.nodup⟩, ?_, ?_⟩
  · refine Linked.link_of_ne ?_
    show i ≠ 0xFFFFFFFF
    omega
  · dsimp only
    rw [Function.update_self]
    refine (Linked.chain_congr fun j hj => ?_).mpr h.free
    rw [Function.update_of_ne]
    rintro rfl
    exact hout hj
  · show p.freeCount + 1 = (i :: xs).length
    rw [h.count]
    rfl
  · intro j hj
    rcases List.mem_cons.mp hj with rfl | hj
    · exact hi
    · exact h.bound j hj
  · intro j hj
    rw [hlive.mem_erase_iff, List.mem_cons, h.live j hj, not_and_or, not_not]
    refine or_congr_left ⟨fun hji => by rw [hji], fun heq => objectAt_inj heq⟩

theorem Inv.putBack (h : Inv cfg s l frees) (ha : a ∈ l) (hi : i < (s.pools a).capacity)
    (hlive : cfg.sizes.objectAt a i ∈ s.live) :
    ∃ frees', Inv cfg { s.putBack cfg (cfg.sizes.objectAt a i) a i with
      live := s.live.erase (cfg.sizes.objectAt a i) } l frees' := by
  have hout : i ∉ frees a := by
    intro hmem
    exact ((h.holds a ha).live i hi).mp hmem hlive
  have hmem : ∀ o, o ∈ s.live.erase (cfg.sizes.objectAt a i) ↔
      o ≠ cfg.sizes.objectAt a i ∧ o ∈ s.live := fun o => h.nodup.mem_erase_iff
  refine ⟨_, h.setPool ha rfl rfl rfl (h.exact a ha) le_rfl
    (fun b hb hba => h.apart a ha b hb (Ne.symm hba))
    ((h.holds a ha).push (h.exact a ha) hi hout h.nodup) (h.nodup.erase _) ?_ rfl ?_ rfl ?_⟩
  · intro o ho
    rw [hmem, and_iff_right (ho i hi)]
  · show s.freeCount + 1 + (s.pools a).freeCount = s.freeCount + ((s.pools a).freeCount + 1)
    omega
  · intro hbit o ho
    obtain ⟨hne, hold⟩ := (hmem o).mp ho
    show (if cfg.busyBit then Function.update s.busy _ false else s.busy) o = true
    rw [if_pos hbit, Function.update_of_ne hne]
    exact h.busy hbit o hold

/-- In a pool with one busy object there is no other. -/
theorem Holds.only (h : Holds z a p xs live) (hone : p.capacity - p.freeCount = 1)
    (hi : i < p.capacity) (hj : j < p.capacity) (hli : z.objectAt a i ∈ live)
    (hlj : z.objectAt a j ∈ live) : i = j := by
  by_contra hij
  have hni : i ∉ xs := fun hmem => (h.live i hi).mp hmem hli
  have hnj : j ∉ xs := fun hmem => (h.live j hj).mp hmem hlj
  have hnodup : (i :: j :: xs).Nodup := by
    refine List.nodup_cons.mpr ⟨?_, List.nodup_cons.mpr ⟨hnj, h.nodup⟩⟩
    rw [List.mem_cons, not_or]
    exact ⟨hij, hni⟩
  have hsub : (i :: j :: xs) ⊆ List.range p.capacity := by
    intro k hk
    rw [List.mem_range]
    rcases List.mem_cons.mp hk with rfl | hk
    · exact hi
    · rcases List.mem_cons.mp hk with rfl | hk
      · exact hj
      · exact h.bound k hk
  have hlen := (List.subperm_of_subset hnodup hsub).length_le
  rw [List.length_range, List.length_cons, List.length_cons, ← h.count] at hlen
  omega

/-- Taking a pool out of the chain changes the link of the one before it. -/
theorem unplug_eq (s : ObjectAllocator) (previous : Option ℕ) (a : ℕ) :
    (s.unplug previous a).capacity = s.capacity - (s.pools a).capacity ∧
      (s.unplug previous a).freeCount = s.freeCount - (s.pools a).freeCount ∧
      (s.unplug previous a).poolCount = s.poolCount - 1 ∧
      (s.unplug previous a).busy = s.busy ∧ (s.unplug previous a).live = s.live ∧
      (s.unplug previous a).firstPool =
        (if previous.isNone then (s.pools a).next else s.firstPool) ∧
      ∀ b, (s.unplug previous a).pools b =
        if previous = some b then { s.pools b with next := (s.pools a).next } else s.pools b := by
  unfold ObjectAllocator.unplug
  cases previous with
  | none =>
      refine ⟨rfl, rfl, rfl, rfl, rfl, rfl, fun b => ?_⟩
      rw [if_neg nofun]
  | some c =>
      refine ⟨rfl, rfl, rfl, rfl, rfl, rfl, fun b => ?_⟩
      show Function.update s.pools c _ b = _
      by_cases hbc : c = b
      · rw [hbc, Function.update_self, if_pos rfl]
      · rw [Function.update_of_ne (Ne.symm hbc), if_neg fun heq => hbc (Option.some.inj heq)]

/-- A pool is taken out of the chain with its last object. -/
theorem Inv.unplug {front back : List ℕ} (h : Inv cfg s (front ++ a :: back) frees)
    (hone : (s.pools a).capacity - (s.pools a).freeCount = 1) (hi : i < (s.pools a).capacity)
    (hlive : cfg.sizes.objectAt a i ∈ s.live) :
    Inv cfg { s.unplug front.getLast? a with live := s.live.erase (cfg.sizes.objectAt a i) }
      (front ++ back) frees := by
  have ha : a ∈ front ++ a :: back := List.mem_append_right _ List.mem_cons_self
  have hperm : (front ++ a :: back).Perm (a :: (front ++ back)) := List.perm_middle
  obtain ⟨hout, hdistinct⟩ := List.nodup_cons.mp (hperm.nodup_iff.mp h.distinct)
  have hold : ∀ b ∈ front ++ back, b ∈ front ++ a :: back ∧ b ≠ a := by
    intro b hb
    refine ⟨hperm.mem_iff.mpr (List.mem_cons_of_mem _ hb), ?_⟩
    rintro rfl
    exact hout hb
  have hmem : ∀ o, o ∈ s.live.erase (cfg.sizes.objectAt a i) ↔
      o ≠ cfg.sizes.objectAt a i ∧ o ∈ s.live := fun o => h.nodup.mem_erase_iff
  obtain ⟨hcapacity, hfree, hcount, hbusy, -, hfirst, hunplug⟩ := s.unplug_eq front.getLast? a
  have hpools : ∀ b, ∃ next,
      (s.unplug front.getLast? a).pools b = { s.pools b with next := next } := by
    intro b
    rw [hunplug]
    split
    · exact ⟨_, rfl⟩
    · exact ⟨(s.pools b).next, rfl⟩
  have hcap : ∀ b, ((s.unplug front.getLast? a).pools b).capacity = (s.pools b).capacity := by
    intro b
    obtain ⟨next, hb⟩ := hpools b
    rw [hb]
  have hfreeCount : ∀ b, ((s.unplug front.getLast? a).pools b).freeCount = (s.pools b).freeCount := by
    intro b
    obtain ⟨next, hb⟩ := hpools b
    rw [hb]
  refine ⟨?_, hdistinct, ?_, ?_, ?_, h.nodup.erase _, ?_, ?_, ?_, ?_, ?_⟩
  · have hremove : Linked.Chain (fun b => ((s.unplug front.getLast? a).pools b).next)
        (if front.isEmpty then (s.pools a).next else s.firstPool) (front ++ back) := by
      refine h.chain.remove (List.nodup_append.mp h.distinct).1 ?_ ?_ ?_
      · intro b hb
        rw [hunplug, if_pos hb]
      · intro b _ hb
        rw [hunplug, if_neg hb]
      · intro b hb
        rw [hunplug, if_neg]
        intro hlast
        have hb' := List.mem_of_getLast? hlast
        exact (List.nodup_append.mp hdistinct).2.2 b hb' b hb rfl
    show Linked.Chain _ (s.unplug front.getLast? a).firstPool _
    rw [hfirst]
    cases front with
    | nil => exact hremove
    | cons c front =>
        have hsome : (c :: front).getLast?.isNone = false := by simp
        rw [hsome]
        exact hremove
  · intro b hb
    show cfg.sizes.Exact ((s.unplug front.getLast? a).pools b).capacity
    rw [hcap]
    exact h.exact b (hold b hb).1
  · intro b hb c hc hbc
    show b + cfg.sizes.poolSize ((s.unplug front.getLast? a).pools b).capacity ≤ c ∨
      c + cfg.sizes.poolSize ((s.unplug front.getLast? a).pools c).capacity ≤ b
    rw [hcap, hcap]
    exact h.apart b (hold b hb).1 c (hold c hc).1 hbc
  · intro b hb
    obtain ⟨next, hb'⟩ := hpools b
    show Holds _ _ ((s.unplug front.getLast? a).pools b) _ _
    rw [hb']
    refine (h.holds b (hold b hb).1).congr rfl rfl rfl rfl fun j hj => ?_
    rw [hmem, and_iff_right]
    exact h.objects_ne (hold b hb).1 ha (hold b hb).2 hj hi
  · intro o ho
    obtain ⟨hne, hin⟩ := (hmem o).mp ho
    obtain ⟨b, hb, j, hj, rfl⟩ := h.inside o hin
    have hba : b ≠ a := by
      rintro rfl
      refine hne ?_
      rw [(h.holds b ha).only hone hj hi hin hlive]
    refine ⟨b, (List.mem_cons.mp (hperm.mem_iff.mp hb)).resolve_left hba, j, ?_, rfl⟩
    show j < ((s.unplug front.getLast? a).pools b).capacity
    rw [hcap]
    exact hj
  · show (s.unplug front.getLast? a).capacity = _
    have hsum := h.capacity
    rw [(hperm.map _).sum_eq, List.map_cons, List.sum_cons] at hsum
    rw [hcapacity, List.map_congr_left fun b _ => hcap b]
    omega
  · show (s.unplug front.getLast? a).freeCount = _
    have hsum := h.freeCount
    rw [(hperm.map _).sum_eq, List.map_cons, List.sum_cons] at hsum
    rw [hfree, List.map_congr_left fun b _ => hfreeCount b]
    omega
  · show (s.unplug front.getLast? a).poolCount = _
    have hsum := h.poolCount
    rw [hperm.length_eq, List.length_cons] at hsum
    rw [hcount]
    omega
  · intro hbit o ho
    show (s.unplug front.getLast? a).busy o = true
    rw [hbusy]
    exact h.busy hbit o ((hmem o).mp ho).2

theorem Inv.freeIn {front back : List ℕ} (h : Inv cfg s (front ++ a :: back) frees)
    (hi : i < (s.pools a).capacity) (hlive : cfg.sizes.objectAt a i ∈ s.live) :
    (s.freeIn cfg (cfg.sizes.objectAt a i) front.getLast? a i).live = s.live ∧
      ∃ l frees', Inv cfg { s.freeIn cfg (cfg.sizes.objectAt a i) front.getLast? a i with
        live := s.live.erase (cfg.sizes.objectAt a i) } l frees' := by
  unfold ObjectAllocator.freeIn
  split
  · next hrelease =>
    obtain ⟨-, -, -, -, hsame, -⟩ := s.unplug_eq front.getLast? a
    exact ⟨hsame, _, frees, h.unplug hrelease.1 hi hlive⟩
  · obtain ⟨frees', hput⟩ := h.putBack (List.mem_append_right _ List.mem_cons_self) hi hlive
    exact ⟨rfl, _, frees', hput⟩

theorem Inv.deallocate (h : Inv cfg s l frees) (ho : o ∈ s.live) :
    ∃ s' l' frees', s.perform cfg (.deallocate o) = some s' ∧ Inv cfg s' l' frees' := by
  obtain ⟨a, ha, i, hi, rfl⟩ := h.inside o ho
  obtain ⟨front, back, rfl⟩ := List.append_of_mem ha
  obtain ⟨first, hfirst⟩ : ∃ first, s.firstPool = some first := by
    have hchain := h.chain
    rw [Chained] at hchain
    cases front with
    | nil => exact ⟨_, hchain.1⟩
    | cons b front => exact ⟨_, hchain.1⟩
  have hfront : ∀ b ∈ front,
      contains cfg.sizes b (s.pools b) (cfg.sizes.objectAt a i) = none := by
    intro b hb
    refine h.contains_none ha (List.mem_append_left _ hb) ?_ hi
    rintro rfl
    exact (List.nodup_append.mp h.distinct).2.2 b hb b List.mem_cons_self rfl
  have hfind : find cfg.sizes s.pools (cfg.sizes.objectAt a i) s.poolCount none first =
      .found (front.getLast?.or none) a i := by
    refine find_spec ?_ h.poolCount.ge hfront (contains_objectAt hi)
    rw [← hfirst]
    exact h.chain
  rw [Option.or_none] at hfind
  have hnot : ¬ (cfg.busyBit = true ∧ s.busy (cfg.sizes.objectAt a i) = false) := by
    rintro ⟨hbit, hfree⟩
    rw [h.busy hbit _ ho] at hfree
    cases hfree
  obtain ⟨hsame, l', frees', hinv⟩ := (h.setBusyCount (s.busyCount - 1)).freeIn hi ho
  have heq : s.deallocateObject cfg (cfg.sizes.objectAt a i) =
      some (.ok (), { s with busyCount := s.busyCount - 1 }.freeIn cfg
        (cfg.sizes.objectAt a i) front.getLast? a i) := by
    unfold deallocateObject
    rw [if_neg hnot, hfirst]
    dsimp only
    rw [hfind, ← hfirst]
  refine ⟨_, l', frees', congrArg (Option.map _) heq, ?_⟩
  generalize { s with busyCount := s.busyCount - 1 }.freeIn cfg
    (cfg.sizes.objectAt a i) front.getLast? a i = s' at hsame hinv ⊢
  show Inv cfg { s' with live := s'.live.erase (cfg.sizes.objectAt a i) } l' frees'
  rw [hsame]
  exact hinv

/-- What the program writes to its objects does not matter. -/
theorem Inv.write (h : Inv cfg s l frees) (ha : a ∈ l) (hi : i < (s.pools a).capacity)
    (hlive : cfg.sizes.objectAt a i ∈ s.live) (value : ℕ) :
    ∃ frees', Inv cfg (s.setPool a
      { s.pools a with objects := Function.update (s.pools a).objects i value }) l frees' := by
  have hholds := h.holds a ha
  have hout : i ∉ frees a := fun hmem => (hholds.live i hi).mp hmem hlive
  refine ⟨_, h.setPool ha rfl rfl rfl (h.exact a ha) le_rfl
    (fun b hb hba => h.apart a ha b hb (Ne.symm hba))
    ⟨?_, hholds.count, hholds.nodup, hholds.bound, hholds.live⟩ h.nodup (fun _ _ => Iff.rfl)
    rfl rfl rfl h.busy⟩
  refine (Linked.chain_congr fun j hj => ?_).mpr hholds.free
  dsimp only
  rw [Function.update_of_ne]
  rintro rfl
  exact hout hj

/-! ## Runs -/

theorem Inv.step (h : Inv cfg s l frees) (action : Action) (henabled : s.Enabled cfg action)
    (hfit : s.Fit cfg action) :
    ∃ s' l' frees', s.perform cfg action = some s' ∧ Inv cfg s' l' frees' := by
  cases action with
  | allocate estimatedLeft acquired granted => exact h.allocate henabled hfit
  | deallocate o => exact h.deallocate henabled
  | forceExpand estimate acquired => exact h.forceExpand henabled hfit
  | write a i value =>
      obtain ⟨hlive, hi, l', hl', ha⟩ := henabled
      obtain rfl := hl'.unique h.chain
      obtain ⟨frees', hwrite⟩ := h.write ha hi hlive value
      exact ⟨_, l', frees', rfl, hwrite⟩

theorem Reachable.inv (h : Reachable cfg (Fit cfg) s) : ∃ l frees, Inv cfg s l frees := by
  induction h with
  | start => exact ⟨[], _, Inv.initial cfg⟩
  | step action _ henabled hfit hperform ih =>
      obtain ⟨l, frees, h⟩ := ih
      obtain ⟨s', l', frees', heq, h'⟩ := h.step action henabled hfit
      rw [hperform] at heq
      cases heq
      exact ⟨l', frees', h'⟩

/-- In a run whose calls meet the condition every call comes back and no object is lost or
handed out twice. -/
theorem Reachable.objects_accounted (h : Reachable cfg (Fit cfg) s) :
    (∃ l, Accounted cfg s l) ∧
      ∀ action, s.Enabled cfg action → s.Fit cfg action → s.ComesBack cfg action := by
  obtain ⟨l, frees, hinv⟩ := h.inv
  refine ⟨⟨l, hinv.toAccounted⟩, fun action henabled hfit => ?_⟩
  obtain ⟨s', _, _, heq, -⟩ := hinv.step action henabled hfit
  exact ⟨s', heq⟩

/-- Objects of a quarter of a page: a pool of three. -/
def quarters : Config :=
  ⟨⟨1024, 1024, by decide, by decide⟩, true, .keepOne, true, 100⟩

theorem quarters_suitable : Suitable quarters.sizes 1 ∧
    quarters.sizes.objectCount (quarters.sizes.poolSize 1) = 3 := by
  have hsize : quarters.sizes.poolSize 1 = 4096 := by decide +kernel
  have hcount : quarters.sizes.objectCount 4096 = 3 := by decide +kernel
  refine ⟨⟨?_, ?_, ?_⟩, ?_⟩
  · show 1024 * 1 + 1024 + 4096 ≤ 2 ^ 64
    norm_num
  all_goals rw [hsize, hcount]
  all_goals norm_num

theorem chained_initial (h : initial.Chained l) : l = [] := by
  cases l with
  | nil => rfl
  | cons a l => cases h.1

theorem Reachable.accounted_allocate : ∃ s : ObjectAllocator, s.live = [0x3400] ∧
    s.freeCount = 2 ∧ (∃ l, Accounted quarters s l) ∧
      ∀ action, s.Enabled quarters action → s.Fit quarters action →
        s.ComesBack quarters action := by
  obtain ⟨hsuitable, hthree⟩ := quarters_suitable
  obtain ⟨p, hacquire, -, -, -, hfree, hcapacity, hlist⟩ :=
    ObjectPool.acquire_spec hsuitable.representable hsuitable.pos hsuitable.bound
  rw [hthree] at hcapacity
  rw [hcapacity] at hfree hlist
  have hfirst : p.firstFreeObject = 0 := (Linked.link_eq_some.mp hlist.1).1
  have henabled : initial.Enabled quarters (.allocate 1 (some 0x3000) false) := by
    intro l hl
    obtain rfl := chained_initial hl
    intro a _ b hb
    cases hb
  have hfit : initial.Fit quarters (.allocate 1 (some 0x3000) false) :=
    Or.inr ⟨[], rfl, Or.inr ⟨hsuitable, fun _ hone => by
      rw [show min 1 2 = 1 from rfl, hthree] at hone
      cases hone⟩⟩
  have hbelow : ¬ initial.busyCount ≥ quarters.quota := by decide
  have hallocate : initial.allocateObject quarters 1 (some 0x3000) false =
      some (({ initial with busyCount := 1 }.plug 0x3000 p).handOut quarters 0x3400 0x3000
        (pop { p with next := none })) := by
    unfold allocateObject
    rw [if_neg hbelow]
    unfold allocateBelow acquireFirst
    dsimp only [initial]
    rw [show min 1 2 = 1 from rfl, hacquire, Option.bind_some]
    unfold takeFrom
    dsimp only [plug, setPool]
    rw [Function.update_self]
    dsimp only [pop]
    rw [hfree, hfirst]
    exact if_neg (show ¬ 3 - 1 = 0 by decide)
  have hperform : ∃ s', initial.perform quarters (.allocate 1 (some 0x3000) false) = some s' ∧
      s'.live = [0x3400] ∧ s'.freeCount = 0 + p.freeCount - 1 := by
    unfold perform
    dsimp only
    rw [hallocate]
    exact ⟨_, rfl, rfl, rfl⟩
  obtain ⟨s', hs', hlive, hcount⟩ := hperform
  rw [hfree] at hcount
  exact ⟨s', hlive, hcount, Reachable.objects_accounted (.step _ .start henabled hfit hs')⟩

/-- A whole page for each object, and another one for the header. -/
def wholePages : Config :=
  ⟨⟨4096, 4096, by decide, by decide⟩, true, .releaseAll, false, 100⟩

/-- Asked for no objects `AcquirePool` makes a pool without any, and `FillPool` writes through a
null pointer. -/
theorem Reachable.acquire_empty : ¬ ∀ (cfg : Config) (s : ObjectAllocator),
    Reachable cfg (fun _ _ => True) s →
      (∃ l, Accounted cfg s l) ∧ ∀ action, s.Enabled cfg action → s.ComesBack cfg action := by
  intro hclaim
  have henabled : initial.Enabled wholePages (.allocate 0 (some 0x1000) true) := by
    intro l hl
    obtain rfl := chained_initial hl
    intro a _ b hb
    cases hb
  obtain ⟨s', heq⟩ := (hclaim wholePages initial .start).2 _ henabled
  have hnone : initial.perform wholePages (.allocate 0 (some 0x1000) true) = none := by
    have hsize : wholePages.sizes.poolSize 0 = 4096 := by decide +kernel
    have hcount : wholePages.sizes.objectCount 4096 = 0 := by decide +kernel
    have hacquire : ObjectPool.acquire wholePages.sizes (min 0 2) = none := by
      unfold ObjectPool.acquire
      rw [show min 0 2 = 0 from rfl, hsize, hcount]
      rfl
    have hallocate : initial.allocateObject wholePages 0 (some 0x1000) true = none := by
      unfold allocateObject
      rw [if_neg (by decide)]
      unfold allocateBelow acquireFirst
      dsimp only [initial]
      rw [hacquire]
      rfl
    unfold perform
    dsimp only
    rw [hallocate]
    rfl
  rw [hnone] at heq
  cases heq

end ObjectAllocator

end Beelzebub.Objects
