import Beelzebub.Lib.Tiling
import Beelzebub.Memory.ObjectPools
import Mathlib.Algebra.BigOperators.Group.List.Basic

/-!
# The sizes of heap pools

The size of a pool in the kernel heap is not stored.  It is computed again from the capacity,
which is the number of objects that fit in an earlier size, rounded up to pages.  The capacity
is an index of 32 bits: where more objects fit, what is computed is smaller than what is mapped.

The sizes are those of the code for any object size.  The ranges that are mapped for a pool are
recorded, in the order in which they are asked for.
-/

namespace Beelzebub.Objects

/-! ## The code -/

/-- A pool, where it is, and the ranges that were mapped for it. -/
structure HeapPool where
  address : ℕ
  pool : ObjectPool
  mapped : List (ℕ × ℕ)

/-- `RoundUp(objectSize * count + headerSize, PageSize.Value)`. -/
def mappedSize (objectSize headerSize count : ℕ) : ℕ :=
  roundUp ((objectSize * count + headerSize) % 2 ^ 64)

/-- `(obj_ind_t)((size.Value - headerSize) / objectSize)`. -/
def countIn (objectSize headerSize size : ℕ) : ℕ :=
  Word.sub size headerSize / objectSize % 2 ^ 32

namespace HeapPool

/-- `AcquirePoolInKernelHeap`, once it has pages at this address. -/
def acquirePoolInKernelHeap (objectSize headerSize minimumObjects address : ℕ) :
    Option HeapPool :=
  -- `sizeof(ObjectPoolBase)`
  if headerSize ≥ 24 then
    let size := mappedSize objectSize headerSize minimumObjects
    (ObjectPool.blank.fill (countIn objectSize headerSize size)).map fun pool =>
      { address := address, pool := pool, mapped := [(address, size)] }
  else none

/-- `EnlargePoolInKernelHeap`, where the pages behind the pool are granted or not. -/
def enlargePoolInKernelHeap (objectSize headerSize minimumExtraObjects : ℕ) (granted : Bool)
    (p : HeapPool) : Option HeapPool :=
  let oldSize := mappedSize objectSize headerSize p.pool.capacity
  let newSize := mappedSize objectSize headerSize (p.pool.capacity + minimumExtraObjects)
  if newSize > oldSize then
    if granted then
      let newCount := countIn objectSize headerSize newSize
      let last := if p.pool.freeCount > 0 then some p.pool.lastFreeObject else none
      (ObjectPool.close newCount
          (ObjectPool.link last p.pool.capacity (newCount - p.pool.capacity) p.pool)).map fun q =>
        { address := p.address
          pool :=
            { q with capacity := newCount
                     freeCount := (q.freeCount + (newCount + 2 ^ 32 - p.pool.capacity)) % 2 ^ 32 }
          mapped := p.mapped ++ [(Word.add p.address oldSize, newSize - oldSize)] }
    else some p
  else none

/-- The range that `ReleasePoolFromKernelHeap` frees. -/
def releasePoolFromKernelHeap (objectSize headerSize : ℕ) (p : HeapPool) : ℕ × ℕ :=
  (p.address, mappedSize objectSize headerSize p.pool.capacity)

/-- An object of the pool. -/
def objectAt (objectSize headerSize i : ℕ) (p : HeapPool) : ℕ :=
  p.address + headerSize + i * objectSize

/-- The bytes that are mapped for the pool. -/
def bytes (p : HeapPool) : ℕ := (p.mapped.map Prod.snd).sum

/-- The pools of an allocator are these pools. -/
theorem acquire_pool (z : Sizes) (minimumObjects address : ℕ) :
    (acquirePoolInKernelHeap z.objectSize z.headerSize minimumObjects address).map pool =
      ObjectPool.acquire z minimumObjects := by
  unfold acquirePoolInKernelHeap ObjectPool.acquire
  rw [if_pos z.header_le, Option.map_map]
  exact Option.map_id'

theorem enlarge_pool (z : Sizes) (extra : ℕ) (granted : Bool) (p : HeapPool) :
    (p.enlargePoolInKernelHeap z.objectSize z.headerSize extra granted).map pool =
      p.pool.enlarge z extra granted := by
  unfold enlargePoolInKernelHeap ObjectPool.enlarge
  dsimp only [mappedSize, countIn, Sizes.poolSize, Sizes.objectCount]
  split
  · split
    · rw [Option.map_map]
      rfl
    · rfl
  · rfl

/-! ## Runs of a pool -/

variable {o h n a extra : ℕ} {p q : HeapPool} {granted : Bool}

/-- No computation of the size of a pool for so many objects overflows. -/
def NoOverflow (o h n : ℕ) : Prop := o * n + h + pageSize ≤ 2 ^ 64

/-- The pages of a pool for so many objects have no room for as many as cannot be numbered. -/
def Numbered (o h n : ℕ) : Prop := mappedSize o h n < o * 2 ^ 32 + h

/-- A pool is acquired, enlarged and used; the pages that are granted for it are in the address
space, and the numbers of objects asked for are of this kind. -/
inductive Run (o h : ℕ) (kind : ℕ → Prop) : HeapPool → Prop
  | acquire {n a : ℕ} {p : HeapPool} : 0 < n → NoOverflow o h n → kind n →
      a + mappedSize o h n ≤ 2 ^ 64 → acquirePoolInKernelHeap o h n a = some p → Run o h kind p
  | enlarge {extra : ℕ} {granted : Bool} {p q : HeapPool} : Run o h kind p → 0 < extra →
      NoOverflow o h (p.pool.capacity + extra) →
      (granted = true → kind (p.pool.capacity + extra) ∧
        p.address + mappedSize o h (p.pool.capacity + extra) ≤ 2 ^ 64) →
      p.enlargePoolInKernelHeap o h extra granted = some q → Run o h kind q
  | use {p : HeapPool} {pool : ObjectPool} : Run o h kind p → pool.capacity = p.pool.capacity →
      Run o h kind { p with pool := pool }

/-- What is mapped is what is computed from the capacity: from the address of the pool on, with
all objects inside, and it is what is released. -/
structure Recovered (o h : ℕ) (p : HeapPool) : Prop where
  bytes : p.bytes = mappedSize o h p.pool.capacity
  mapped : Tiling.Tiles Prod.fst (fun r => r.1 + r.2) p.address p.mapped (p.address + p.bytes)
  inside : ∀ i < p.pool.capacity, p.address + h ≤ p.objectAt o h i ∧
    p.objectAt o h i + o ≤ p.address + p.bytes
  released : p.releasePoolFromKernelHeap o h = (p.address, p.bytes)

/-- The new pages are right behind the old ones, and there is room for the objects asked for. -/
structure Enlarged (o h extra : ℕ) (p q : HeapPool) : Prop where
  recovered : Recovered o h q
  capacity : p.pool.capacity + extra ≤ q.pool.capacity
  mapped : q.mapped = p.mapped ++ [(p.address + p.bytes, q.bytes - p.bytes)]

/-! ## Sizes -/

theorem page_pos : 0 < pageSize := by decide

theorem mappedSize_eq (hn : NoOverflow o h n) :
    mappedSize o h n = Rounding.up pageSize (o * n + h) := by
  unfold NoOverflow pageSize at hn
  rw [Rounding.up_eq page_pos, mappedSize, roundUp, pageSize,
    Nat.mod_eq_of_lt (a := o * n + h) (by omega), Nat.mod_eq_of_lt (by omega)]

theorem le_mappedSize (hn : NoOverflow o h n) : o * n + h ≤ mappedSize o h n := by
  rw [mappedSize_eq hn]
  exact Rounding.le_up page_pos

theorem mappedSize_le (hn : NoOverflow o h n) : mappedSize o h n + pageSize ≤ 2 ^ 64 := by
  have hle : o * n + h ≤ pageSize * (2 ^ 52 - 1) := by
    unfold NoOverflow pageSize at hn
    unfold pageSize
    omega
  have hup := Rounding.up_le page_pos hle
  rw [← mappedSize_eq hn] at hup
  exact Nat.add_le_add_right hup pageSize

/-- A pool of this capacity has no room for another object. -/
structure Full (o h c : ℕ) : Prop where
  noOverflow : NoOverflow o h c
  lt : mappedSize o h c < o * (c + 1) + h

/-- What a pool for so many objects becomes. -/
inductive Counted (o h n : ℕ) : Prop
  | exact : Numbered o h n → n ≤ countIn o h (mappedSize o h n) →
      Full o h (countIn o h (mappedSize o h n)) →
      mappedSize o h (countIn o h (mappedSize o h n)) = mappedSize o h n → Counted o h n
  | truncated : ¬Numbered o h n →
      mappedSize o h (countIn o h (mappedSize o h n)) < mappedSize o h n → Counted o h n

/-- The size is recovered from the number of objects if that is not truncated. -/
theorem counted_of_noOverflow (ho : 0 < o) (hn : NoOverflow o h n) : Counted o h n := by
  have hle := le_mappedSize hn
  have hlt := mappedSize_le hn
  have hpage := page_pos
  have hskip : h ≤ mappedSize o h n := (Nat.le_add_left h _).trans hle
  obtain ⟨hroom, hnext⟩ := Rounding.items_spec ho hskip
  have hcount : countIn o h (mappedSize o h n) =
      Rounding.items o h (mappedSize o h n) % 2 ^ 32 := by
    rw [countIn, Word.sub_of_le (by omega) hskip, Rounding.items]
  have hmin : n ≤ Rounding.items o h (mappedSize o h n) := by
    rw [mappedSize_eq hn]
    exact Rounding.le_items page_pos ho
  have hsame : Rounding.up pageSize (o * Rounding.items o h (mappedSize o h n) + h) =
      mappedSize o h n := by
    rw [mappedSize_eq hn]
    exact Rounding.up_items page_pos ho
  generalize Rounding.items o h (mappedSize o h n) = count at hcount hmin hsame hroom hnext
  rcases Nat.lt_or_ge count (2 ^ 32) with hlow | hhigh
  · rw [Nat.mod_eq_of_lt hlow] at hcount
    have hov : NoOverflow o h count := (Nat.add_le_add_right hroom pageSize).trans hlt
    have hmapped : mappedSize o h count = mappedSize o h n := (mappedSize_eq hov).trans hsame
    have hfull : Full o h count := by
      refine ⟨hov, ?_⟩
      rw [hmapped]
      exact hnext
    have hnum : Numbered o h n := by
      have hmul := Nat.mul_le_mul_left o (show count + 1 ≤ 2 ^ 32 from hlow)
      unfold Numbered
      omega
    rw [← hcount] at hmin hfull hmapped
    exact .exact hnum hmin hfull hmapped
  · have hmul := Nat.mul_le_mul_left o hhigh
    refine .truncated (by unfold Numbered; omega) ?_
    have hdiv : count % 2 ^ 32 + 2 ^ 32 ≤ count := by omega
    have hless := Nat.mul_le_mul_left o hdiv
    rw [Nat.mul_add, ← hcount] at hless
    have hstep : pageSize ≤ o * 2 ^ 32 := by
      unfold pageSize
      omega
    have hov : NoOverflow o h (countIn o h (mappedSize o h n)) := by
      unfold NoOverflow
      omega
    rw [mappedSize_eq hov]
    exact Rounding.up_lt_of_add_le page_pos (by omega)

theorem Full.mappedSize_lt (hf : Full o h n) (hov : NoOverflow o h (n + extra))
    (hextra : 0 < extra) : mappedSize o h n < mappedSize o h (n + extra) := by
  have hlt := hf.lt
  rw [mappedSize_eq hf.noOverflow] at hlt ⊢
  rw [mappedSize_eq hov]
  exact Rounding.up_lt_up page_pos hlt hextra

/-! ## Filling -/

/-- The loop keeps the capacity, and there is a last object if there is any. -/
theorem link_spec (last : Option ℕ) (i n : ℕ) (pool : ObjectPool) :
    (ObjectPool.link last i n pool).2.capacity = pool.capacity ∧
      (last ≠ none ∨ 0 < n → ∃ l, (ObjectPool.link last i n pool).1 = some l) := by
  induction n generalizing last i pool with
  | zero =>
      cases last with
      | none => exact ⟨rfl, fun hor => by simp at hor⟩
      | some l => exact ⟨rfl, fun _ => ⟨l, rfl⟩⟩
  | succ n ih =>
      cases last with
      | none =>
          obtain ⟨hcap, hlast⟩ := ih (some i) (i + 1) { pool with firstFreeObject := i }
          exact ⟨hcap, fun _ => hlast (Or.inl (Option.some_ne_none i))⟩
      | some l =>
          obtain ⟨hcap, hlast⟩ := ih (some i) (i + 1)
            { pool with objects := Function.update pool.objects l i }
          exact ⟨hcap, fun _ => hlast (Or.inl (Option.some_ne_none i))⟩

/-- After a loop over some objects there is a pool. -/
theorem close_link_spec (last : Option ℕ) (i count : ℕ) {n : ℕ} (hn : 0 < n)
    (pool : ObjectPool) :
    ∃ q, ObjectPool.close count (ObjectPool.link last i n pool) = some q ∧
      q.capacity = pool.capacity := by
  obtain ⟨hcap, hlast⟩ := link_spec last i n pool
  obtain ⟨l, hl⟩ := hlast (Or.inr hn)
  generalize ObjectPool.link last i n pool = r at hcap hl
  obtain ⟨r, s⟩ := r
  cases hl
  exact ⟨_, rfl, hcap⟩

theorem close_capacity {count : ℕ} {r : Option ℕ × ObjectPool} {q : ObjectPool}
    (hq : ObjectPool.close count r = some q) : q.capacity = r.2.capacity := by
  obtain ⟨l, s⟩ := r
  cases l with
  | none => cases hq
  | some l =>
      cases hq
      rfl

/-! ## One step -/

/-- The ranges that are mapped, and a capacity without room for another object. -/
structure Held (o h : ℕ) (p : HeapPool) : Prop where
  full : Full o h p.pool.capacity
  mapped : Tiling.Tiles Prod.fst (fun r => r.1 + r.2) p.address p.mapped
    (p.address + mappedSize o h p.pool.capacity)
  bound : p.address + mappedSize o h p.pool.capacity ≤ 2 ^ 64

/-- The bytes of adjoining ranges. -/
theorem tiles_bytes {lo hi : ℕ} {rs : List (ℕ × ℕ)}
    (ht : Tiling.Tiles Prod.fst (fun r => r.1 + r.2) lo rs hi) :
    lo + (rs.map Prod.snd).sum = hi := by
  induction rs generalizing lo with
  | nil => exact ht
  | cons r rs ih =>
      obtain ⟨hstart, -, hrest⟩ := ht
      have hsum := ih hrest
      rw [List.map_cons, List.sum_cons, ← Nat.add_assoc, ← hstart]
      exact hsum

theorem Held.bytes (hp : Held o h p) : p.bytes = mappedSize o h p.pool.capacity :=
  Nat.add_left_cancel (tiles_bytes hp.mapped)

theorem Held.recovered (hp : Held o h p) : Recovered o h p := by
  have hbytes := hp.bytes
  refine ⟨hbytes, hbytes ▸ hp.mapped, fun i hi => ⟨Nat.le_add_right _ _, ?_⟩, ?_⟩
  · have hle := le_mappedSize hp.full.noOverflow
    have hmul := Nat.mul_le_mul_left o (show i + 1 ≤ p.pool.capacity from hi)
    rw [Nat.mul_add, Nat.mul_one, Nat.mul_comm o i] at hmul
    rw [objectAt, hbytes]
    omega
  · rw [releasePoolFromKernelHeap, hbytes]

/-- The pool that is acquired. -/
theorem acquire_spec (hh : 24 ≤ h) (hpos : 0 < countIn o h (mappedSize o h n)) :
    ∃ p, acquirePoolInKernelHeap o h n a = some p ∧ p.address = a ∧
      p.pool.capacity = countIn o h (mappedSize o h n) ∧ p.mapped = [(a, mappedSize o h n)] := by
  obtain ⟨q, hq, hcap⟩ := close_link_spec none 0 (countIn o h (mappedSize o h n)) hpos
    { ObjectPool.blank with
      capacity := countIn o h (mappedSize o h n), freeCount := countIn o h (mappedSize o h n) }
  refine ⟨⟨a, q, [(a, mappedSize o h n)]⟩, ?_, rfl, hcap, rfl⟩
  rw [acquirePoolInKernelHeap, if_pos hh]
  dsimp only [ObjectPool.fill]
  rw [hq]
  rfl

theorem acquire_inv (hp : acquirePoolInKernelHeap o h n a = some p) :
    p.address = a ∧ p.pool.capacity = countIn o h (mappedSize o h n) ∧
      p.mapped = [(a, mappedSize o h n)] := by
  rw [acquirePoolInKernelHeap] at hp
  split at hp
  next =>
    obtain ⟨q, hq, rfl⟩ := Option.map_eq_some_iff.mp hp
    refine ⟨rfl, ?_, rfl⟩
    have hcap := close_capacity hq
    rwa [(link_spec _ _ _ _).1] at hcap
  next => cases hp

/-- What is acquired holds, if its objects can be numbered. -/
theorem acquire_held (ho : 0 < o) (hn : 0 < n) (hov : NoOverflow o h n) (hnum : Numbered o h n)
    (ha : a + mappedSize o h n ≤ 2 ^ 64) (hp : acquirePoolInKernelHeap o h n a = some p) :
    Held o h p ∧ n ≤ p.pool.capacity := by
  obtain ⟨haddr, hcap, hmap⟩ := acquire_inv hp
  cases counted_of_noOverflow ho hov with
  | exact _ hmin hfull hsame =>
      have hle := le_mappedSize hov
      have hpos : 0 < o * n := Nat.mul_pos ho hn
      refine ⟨⟨hcap ▸ hfull, ?_, ?_⟩, hcap ▸ hmin⟩
      · rw [hcap, hsame, hmap, haddr]
        exact ⟨rfl, Nat.lt_add_of_pos_right (by omega), rfl⟩
      · rw [hcap, hsame, haddr]
        exact ha
  | truncated hnot => exact absurd hnum hnot

/-- A pool is acquired with the size that its capacity says exactly if its objects can be
numbered. -/
theorem acquire_iff (ho : 0 < o) (hh : 24 ≤ h) (hn : 0 < n) (hov : NoOverflow o h n)
    (ha : a + mappedSize o h n ≤ 2 ^ 64) :
    (∃ p, acquirePoolInKernelHeap o h n a = some p ∧ Recovered o h p ∧ n ≤ p.pool.capacity) ↔
      Numbered o h n := by
  constructor
  · rintro ⟨p, hp, hrec, -⟩
    obtain ⟨-, hcap, hmap⟩ := acquire_inv hp
    have hbytes := hrec.bytes
    rw [HeapPool.bytes, hmap, hcap] at hbytes
    cases counted_of_noOverflow ho hov with
    | exact hnum => exact hnum
    | truncated _ hlt =>
        simp only [List.map_cons, List.map_nil, List.sum_cons, List.sum_nil, Nat.add_zero] at hbytes
        omega
  · intro hnum
    have hpos : 0 < countIn o h (mappedSize o h n) := by
      cases counted_of_noOverflow ho hov with
      | exact _ hmin => exact Nat.lt_of_lt_of_le hn hmin
      | truncated hnot => exact absurd hnum hnot
    obtain ⟨p, hp, -⟩ := acquire_spec hh hpos
    obtain ⟨hheld, hmin⟩ := acquire_held ho hn hov hnum ha hp
    exact ⟨p, hp, hheld.recovered, hmin⟩

theorem enlarge_refused (hp : Held o h p) (hextra : 0 < extra)
    (hov : NoOverflow o h (p.pool.capacity + extra)) :
    p.enlargePoolInKernelHeap o h extra false = some p := by
  have hlt := hp.full.mappedSize_lt hov hextra
  unfold enlargePoolInKernelHeap
  exact if_pos hlt

/-- Granted pages are filled, if there is an object more. -/
theorem enlarge_granted (hp : Held o h p) (hextra : 0 < extra)
    (hov : NoOverflow o h (p.pool.capacity + extra))
    (hmore : p.pool.capacity < countIn o h (mappedSize o h (p.pool.capacity + extra))) :
    ∃ q, p.enlargePoolInKernelHeap o h extra true = some q := by
  have hlt := hp.full.mappedSize_lt hov hextra
  obtain ⟨r, hr, -⟩ := close_link_spec
    (if p.pool.freeCount > 0 then some p.pool.lastFreeObject else none) p.pool.capacity
    (countIn o h (mappedSize o h (p.pool.capacity + extra))) (Nat.sub_pos_of_lt hmore) p.pool
  unfold enlargePoolInKernelHeap
  dsimp only
  rw [if_pos hlt, if_pos rfl, hr]
  exact ⟨_, rfl⟩

/-- The pool after its new pages were granted. -/
theorem enlarge_inv (hp : Held o h p) (hextra : 0 < extra)
    (hov : NoOverflow o h (p.pool.capacity + extra))
    (hend_lt : p.address + mappedSize o h p.pool.capacity < 2 ^ 64)
    (hq : p.enlargePoolInKernelHeap o h extra true = some q) :
    q.address = p.address ∧
      q.pool.capacity = countIn o h (mappedSize o h (p.pool.capacity + extra)) ∧
      q.mapped = p.mapped ++ [(p.address + mappedSize o h p.pool.capacity,
        mappedSize o h (p.pool.capacity + extra) - mappedSize o h p.pool.capacity)] := by
  have hlt := hp.full.mappedSize_lt hov hextra
  unfold enlargePoolInKernelHeap at hq
  dsimp only at hq
  rw [if_pos hlt, if_pos rfl] at hq
  obtain ⟨r, -, rfl⟩ := Option.map_eq_some_iff.mp hq
  have hend : Word.add p.address (mappedSize o h p.pool.capacity) =
      p.address + mappedSize o h p.pool.capacity := Word.add_of_lt hend_lt
  refine ⟨rfl, rfl, ?_⟩
  rw [hend]

/-- Enlarged pools hold, if their objects can be numbered. -/
theorem enlarge_held (ho : 0 < o) (hp : Held o h p) (hextra : 0 < extra)
    (hov : NoOverflow o h (p.pool.capacity + extra)) (hnum : Numbered o h (p.pool.capacity + extra))
    (hbound : p.address + mappedSize o h (p.pool.capacity + extra) ≤ 2 ^ 64)
    (hq : p.enlargePoolInKernelHeap o h extra true = some q) :
    Held o h q ∧ p.pool.capacity + extra ≤ q.pool.capacity := by
  have hlt := hp.full.mappedSize_lt hov hextra
  obtain ⟨haddr, hcap, hmap⟩ := enlarge_inv hp hextra hov (by omega) hq
  cases counted_of_noOverflow ho hov with
  | exact _ hmin hfull hsame =>
      rw [← hcap] at hmin hfull hsame
      refine ⟨⟨hfull, ?_, ?_⟩, hmin⟩
      · rw [hsame, hmap, haddr, Tiling.tiles_concat]
        refine ⟨hp.mapped, ?_, ?_⟩
        · dsimp only
          omega
        · dsimp only
          omega
      · rw [hsame, haddr]
        exact hbound
  | truncated hnot => exact absurd hnum hnot

/-- A pool is enlarged as asked exactly if its objects can still be numbered. -/
theorem enlarge_iff (ho : 0 < o) (hp : Held o h p) (hextra : 0 < extra)
    (hov : NoOverflow o h (p.pool.capacity + extra))
    (hbound : p.address + mappedSize o h (p.pool.capacity + extra) ≤ 2 ^ 64) :
    (∃ q, p.enlargePoolInKernelHeap o h extra true = some q ∧ Enlarged o h extra p q) ↔
      Numbered o h (p.pool.capacity + extra) := by
  have hlt := hp.full.mappedSize_lt hov hextra
  constructor
  · rintro ⟨q, hq, henl⟩
    obtain ⟨-, hcap, hmap⟩ := enlarge_inv hp hextra hov (by omega) hq
    have hbytes := henl.recovered.bytes
    rw [HeapPool.bytes, hmap, List.map_append, List.sum_append, hcap] at hbytes
    have hold := hp.bytes
    rw [HeapPool.bytes] at hold
    cases counted_of_noOverflow ho hov with
    | exact hnum => exact hnum
    | truncated _ hshort =>
        simp only [List.map_cons, List.map_nil, List.sum_cons, List.sum_nil, Nat.add_zero] at hbytes
        omega
  · intro hnum
    have hmin : p.pool.capacity + extra ≤
        countIn o h (mappedSize o h (p.pool.capacity + extra)) := by
      cases counted_of_noOverflow ho hov with
      | exact _ hmin => exact hmin
      | truncated hnot => exact absurd hnum hnot
    obtain ⟨q, hq⟩ := enlarge_granted hp hextra hov (by omega)
    obtain ⟨hheld, hcap⟩ := enlarge_held ho hp hextra hov hnum hbound hq
    obtain ⟨-, hnew, hmap⟩ := enlarge_inv hp hextra hov (by omega) hq
    refine ⟨q, hq, hheld.recovered, hcap, ?_⟩
    cases counted_of_noOverflow ho hov with
    | exact _ _ _ hsame => rw [hmap, hp.bytes, hheld.bytes, hnew, hsame]
    | truncated hnot => exact absurd hnum hnot

/-! ## Runs -/

theorem Run.held (ho : 0 < o) (hrun : Run o h (Numbered o h) p) : Held o h p := by
  induction hrun with
  | acquire hn hov hnum ha hp => exact (acquire_held ho hn hov hnum ha hp).1
  | @enlarge extra granted p q _ hextra hov hkind hq ih =>
      cases granted with
      | false =>
          rw [enlarge_refused ih hextra hov] at hq
          cases hq
          exact ih
      | true =>
          obtain ⟨hnum, hbound⟩ := hkind rfl
          exact (enlarge_held ho ih hextra hov hnum hbound hq).1
  | @use p pool _ hcap ih => exact ⟨hcap ▸ ih.full, hcap ▸ ih.mapped, hcap ▸ ih.bound⟩

/-- Pools are acquired, and enlarged between any uses, with the sizes that their capacities say,
as long as the objects that the pages have room for can be numbered, and only then. -/
theorem sizes_recovered (ho : 0 < o) :
    (∀ n a, 24 ≤ h → 0 < n → NoOverflow o h n → a + mappedSize o h n ≤ 2 ^ 64 →
      ((∃ p, acquirePoolInKernelHeap o h n a = some p ∧ Recovered o h p ∧ n ≤ p.pool.capacity) ↔
        Numbered o h n)) ∧
    ∀ p, Run o h (Numbered o h) p → Recovered o h p ∧
      ∀ extra, 0 < extra → NoOverflow o h (p.pool.capacity + extra) →
        mappedSize o h p.pool.capacity < mappedSize o h (p.pool.capacity + extra) ∧
        p.enlargePoolInKernelHeap o h extra false = some p ∧
        (p.address + mappedSize o h (p.pool.capacity + extra) ≤ 2 ^ 64 →
          ((∃ q, p.enlargePoolInKernelHeap o h extra true = some q ∧ Enlarged o h extra p q) ↔
            Numbered o h (p.pool.capacity + extra))) := by
  constructor
  · intro n a hh hn hov ha
    exact acquire_iff ho hh hn hov ha
  · intro p hrun
    have hp := hrun.held ho
    refine ⟨hp.recovered, fun extra hextra hov => ?_⟩
    exact ⟨hp.full.mappedSize_lt hov hextra, enlarge_refused hp hextra hov,
      enlarge_iff ho hp hextra hov⟩

/-- A pool for objects of nearly a page. -/
theorem sizes_recovered_page :
    ∃ p, Run 4000 24 (Numbered 4000 24) p ∧ Recovered 4000 24 p := by
  obtain ⟨hacquire, hruns⟩ := sizes_recovered (o := 4000) (h := 24) (by decide)
  have hov : NoOverflow 4000 24 1 := by unfold NoOverflow; decide
  have hnum : Numbered 4000 24 1 := by unfold Numbered; decide
  obtain ⟨p, hp, -⟩ := (hacquire 1 4096 (by decide) (by decide) hov (by decide)).mpr hnum
  have hrun : Run 4000 24 (Numbered 4000 24) p := .acquire (by decide) hov hnum (by decide) hp
  exact ⟨p, hrun, (hruns p hrun).1⟩

/-- With room for more objects than indices, all but the first page is forgotten. -/
theorem not_recovered_of_truncated :
    ¬∀ (o h : ℕ) (p : HeapPool), 0 < o → Run o h (fun _ => True) p → Recovered o h p := by
  intro hall
  obtain ⟨p, hp, -, hcap, hmap⟩ := acquire_spec (o := 8) (h := 24) (n := 2 ^ 32) (a := 4096)
    (by decide) (by decide)
  have hov : NoOverflow 8 24 (2 ^ 32) := by unfold NoOverflow; decide
  have hbytes := (hall 8 24 p (by decide) (.acquire (by decide) hov trivial (by decide) hp)).bytes
  rw [bytes, hmap, hcap] at hbytes
  exact absurd hbytes (by decide)

end HeapPool

end Beelzebub.Objects
