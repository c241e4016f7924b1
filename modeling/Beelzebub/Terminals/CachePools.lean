import Beelzebub.Lib.Tiling
import Beelzebub.Terminals.Cache

/-!
# Pools of the cache terminal in the kernel heap

A pool is a header followed by its characters, on pages of its own, and is enlarged by the pages
right behind it.  `Dump` hands every pool to its target as a string, so that the zero behind the
characters of a pool matters as much as they do.
-/

namespace Beelzebub.CachePools

open Cache Strings

/-! ## The code -/

/-- `sizeof(CharPool)`. -/
def headerSize : ℕ := 16

def pageSize : ℕ := 4096

/-- `RoundUp` to a page.  Texts lie in memory, and a size that is computed from theirs does not
wrap around. -/
def roundUp (value : ℕ) : ℕ := (value + (pageSize - 1)) / pageSize * pageSize

/-- `AllocatePages` for an offset from the pool on and a size.  Fresh pages hold what they please,
by the offset. -/
abbrev AllocatePages := ℕ → ℕ → Except HandleResult (ℕ → UInt8)

variable (alloc : AllocatePages)

def acquireCharPoolInKernelHeap (minSize : ℕ) : Except HandleResult CharPool :=
  let size := roundUp (minSize + 1 + headerSize)
  match alloc 0 size with
  | .error res => .error res
  | .ok bytes =>
      let capacity := size - headerSize - 1
      .ok {
        size := 0
        capacity := capacity % 2 ^ 32
        data := fun i => if i < capacity + 1 then 0 else bytes (headerSize + i)
        ranges := [(0, size)] }

def enlargeCharPoolInKernelHeap (minSize : ℕ) (pool : CharPool) : Except HandleResult CharPool :=
  let oldSize := roundUp ((pool.capacity + 1) % 2 ^ 32 + headerSize)
  let newSize := roundUp ((pool.capacity + 1) % 2 ^ 32 + headerSize + minSize)
  match alloc oldSize (newSize - oldSize) with
  | .error res => .error res
  | .ok bytes =>
      let oldCap := pool.capacity
      let capacity := (newSize - headerSize - 1) % 2 ^ 32
      .ok {
        size := pool.size
        capacity := capacity
        data := fun i =>
          if oldCap ≤ i ∧ i < oldCap + (capacity + 2 ^ 32 - oldCap) % 2 ^ 32 then 0
          else if oldSize ≤ headerSize + i then bytes (headerSize + i)
          else pool.data i
        ranges := pool.ranges ++ [(oldSize, newSize - oldSize)] }

def kernelHeap : CharPoolFuncs where
  acquirePool := acquireCharPoolInKernelHeap alloc
  enlargePool := enlargeCharPoolInKernelHeap alloc

/-- How far the memory goes that is mapped from `lo` on. -/
def extent : ℕ → List (ℕ × ℕ) → ℕ
  | lo, [] => lo
  | lo, (start, size) :: rs => if start = lo then extent (lo + size) rs else lo

/-- `GetString`. -/
def getString (pool : CharPool) : Pointer :=
  (List.range (extent 0 pool.ranges - headerSize)).map pool.data

/-- The loop of `Dump`, with the result so far.  A target that is given a string returns a result
and a size; the last component is what it was given. -/
def dump (target : List UInt8 → HandleResult × UInt32) :
    List CharPool → HandleResult × UInt32 → Option ((HandleResult × UInt32) × List UInt8)
  | [], res => some (res, [])
  | pool :: pools, res =>
      match strlen (getString pool) with
      | none => none
      | some n =>
          let text := (getString pool).take n
          match target text with
          | (.okay, size) =>
              (dump target pools (.okay, size + res.2)).map fun r => (r.1, text ++ r.2)
          | (err, size) => some ((err, size), text)

/-! ## Runs -/

/-- The sizes of pools stay below `2 ^ 32`. -/
def Bounded (alloc : AllocatePages) : Prop :=
  ∀ offset size bytes, alloc offset size = .ok bytes → offset + size < 2 ^ 32

/-- The runs where every write finds pages as allowed. -/
inductive Reachable (Allowed : AllocatePages → Prop) : State → Prop where
  | start : Reachable Allowed start
  | write {s s' : State} {alloc : AllocatePages} (str : CString) (inLen : ℕ) :
      Reachable Allowed s → Bounded alloc → Allowed alloc →
      perform s (.write (kernelHeap alloc) str inLen) = some s' → Reachable Allowed s'
  | clear {s s' : State} : Reachable Allowed s → perform s .clear = some s' → Reachable Allowed s'

/-! ## What is asked -/

/-- The bytes from the size of a pool up to the place of its terminator are zero, its pages are as
many as its capacity takes and follow one another, and a target that takes everything is given the
characters. -/
structure Dumps (s : State) : Prop where
  zeros : ∀ pool ∈ s.term.pools, ∀ i, pool.size ≤ i → i ≤ pool.capacity → pool.data i = 0
  mapped : ∀ pool ∈ s.term.pools, Tiling.Tiles Prod.fst (fun r : ℕ × ℕ => r.1 + r.2) 0
    pool.ranges (roundUp (pool.capacity + 1 + headerSize))
  dumped : ∀ target : List UInt8 → HandleResult × UInt32, (∀ text, (target text).1 = .okay) →
    ∃ res, dump target s.term.pools (.okay, 0) = some (res, held s.term.pools)

/-- Where a pool is enlarged, the last of the fresh bytes happens to be zero. -/
def Fit (alloc : AllocatePages) : Prop :=
  ∀ offset size bytes, offset ≠ 0 → alloc offset size = .ok bytes → bytes (offset + size - 1) = 0

/-! ## Pools -/

/-- A pool that fills its pages. -/
structure Heaped (pool : CharPool) : Prop where
  pages : pageSize ∣ pool.capacity + 1 + headerSize
  bound : pool.capacity + 1 + headerSize < 2 ^ 32
  size_le : pool.size ≤ pool.capacity
  nonzero : ∀ i < pool.size, pool.data i ≠ 0
  zeros : ∀ i, pool.size ≤ i → i ≤ pool.capacity → pool.data i = 0
  mapped : Tiling.Tiles Prod.fst (fun r : ℕ × ℕ => r.1 + r.2) 0 pool.ranges
    (pool.capacity + 1 + headerSize)

variable {alloc : AllocatePages} {pool pool' : CharPool} {pools : List CharPool} {minSize : ℕ}

theorem le_roundUp (value : ℕ) : value ≤ roundUp value := by
  unfold roundUp pageSize
  omega

theorem dvd_roundUp (value : ℕ) : pageSize ∣ roundUp value := Nat.dvd_mul_left _ _

theorem roundUp_of_dvd {value : ℕ} (h : pageSize ∣ value) : roundUp value = value := by
  obtain ⟨k, rfl⟩ := h
  unfold roundUp pageSize
  omega

theorem acquire_heaped (hbounded : Bounded alloc)
    (h : acquireCharPoolInKernelHeap alloc minSize = .ok pool) :
    Heaped pool ∧ pool.size = 0 ∧ minSize ≤ pool.capacity ∧ pool.capacity < 2 ^ 32 := by
  unfold acquireCharPoolInKernelHeap at h
  dsimp only at h
  have hle := le_roundUp (minSize + 1 + headerSize)
  have hdvd := dvd_roundUp (minSize + 1 + headerSize)
  generalize roundUp (minSize + 1 + headerSize) = size at h hle hdvd
  cases halloc : alloc 0 size with
  | error res =>
      rw [halloc] at h
      exact nomatch h
  | ok bytes =>
      rw [halloc] at h
      obtain rfl := Except.ok.inj h
      have hlt := hbounded _ _ _ halloc
      have hcap : (size - headerSize - 1) % 2 ^ 32 = size - headerSize - 1 :=
        Nat.mod_eq_of_lt (by omega)
      have hsize : (size - headerSize - 1) % 2 ^ 32 + 1 + headerSize = size := by omega
      refine ⟨⟨?_, ?_, Nat.zero_le _, (fun i hi => nomatch hi), ?_, ?_⟩, rfl, ?_, ?_⟩
      · show pageSize ∣ (size - headerSize - 1) % 2 ^ 32 + 1 + headerSize
        rw [hsize]
        exact hdvd
      · show (size - headerSize - 1) % 2 ^ 32 + 1 + headerSize < 2 ^ 32
        omega
      · intro i _ hi
        change i ≤ (size - headerSize - 1) % 2 ^ 32 at hi
        exact if_pos (by omega)
      · show 0 = 0 ∧ 0 < 0 + size ∧ 0 + size = (size - headerSize - 1) % 2 ^ 32 + 1 + headerSize
        omega
      · show minSize ≤ (size - headerSize - 1) % 2 ^ 32
        omega
      · exact Nat.mod_lt _ (by decide)

/-- What enlarging a pool that fills its pages does. -/
theorem enlarge_ok (hpool : Heaped pool) (hbounded : Bounded alloc)
    (h : enlargeCharPoolInKernelHeap alloc minSize pool = .ok pool') :
    ∃ newSize bytes,
      newSize = roundUp (pool.capacity + 1 + headerSize + minSize) ∧ newSize < 2 ^ 32 ∧
      alloc (pool.capacity + 1 + headerSize) (newSize - (pool.capacity + 1 + headerSize)) =
        .ok bytes ∧
      pool' = {
        size := pool.size
        capacity := newSize - headerSize - 1
        data := fun i =>
          if pool.capacity ≤ i ∧ i < newSize - headerSize - 1 then 0
          else if pool.capacity + 1 ≤ i then bytes (headerSize + i)
          else pool.data i
        ranges := pool.ranges ++
          [(pool.capacity + 1 + headerSize, newSize - (pool.capacity + 1 + headerSize))] } := by
  have hbound := hpool.bound
  have hcap : (pool.capacity + 1) % 2 ^ 32 = pool.capacity + 1 := Nat.mod_eq_of_lt (by omega)
  unfold enlargeCharPoolInKernelHeap at h
  rw [hcap, roundUp_of_dvd hpool.pages] at h
  dsimp only at h
  have hle := le_roundUp (pool.capacity + 1 + headerSize + minSize)
  generalize hnew : roundUp (pool.capacity + 1 + headerSize + minSize) = newSize at h hle
  cases halloc : alloc (pool.capacity + 1 + headerSize)
      (newSize - (pool.capacity + 1 + headerSize)) with
  | error res =>
      rw [halloc] at h
      exact nomatch h
  | ok bytes =>
      rw [halloc] at h
      obtain rfl := Except.ok.inj h
      have hlt := hbounded _ _ _ halloc
      have hmod : (newSize - headerSize - 1) % 2 ^ 32 = newSize - headerSize - 1 :=
        Nat.mod_eq_of_lt (by omega)
      refine ⟨newSize, bytes, rfl, by omega, halloc, ?_⟩
      rw [hmod]
      congr 1
      funext i
      have hend : pool.capacity + (newSize - headerSize - 1 + 2 ^ 32 - pool.capacity) % 2 ^ 32 =
          newSize - headerSize - 1 := by omega
      have hfresh : pool.capacity + 1 + headerSize ≤ headerSize + i ↔ pool.capacity + 1 ≤ i := by
        omega
      simp only [hend, hfresh]

/-- The zeros go up to the last byte but one. -/
theorem enlarge_heaped (hbounded : Bounded alloc) (hfit : Fit alloc) (hpos : 0 < minSize)
    (hpool : Heaped pool) (h : enlargeCharPoolInKernelHeap alloc minSize pool = .ok pool') :
    Heaped pool' ∧ pool'.size = pool.size ∧ pool.capacity + minSize ≤ pool'.capacity ∧
      pool'.capacity < 2 ^ 32 ∧ ∀ i < pool.size, pool'.data i = pool.data i := by
  obtain ⟨newSize, bytes, hnew, hlt, halloc, rfl⟩ := enlarge_ok hpool hbounded h
  have hle := le_roundUp (pool.capacity + 1 + headerSize + minSize)
  have hdvd := dvd_roundUp (pool.capacity + 1 + headerSize + minSize)
  rw [← hnew] at hle hdvd
  have hsize : newSize - headerSize - 1 + 1 + headerSize = newSize := by omega
  have hroom := hpool.size_le
  have hlast := hfit _ _ _ (by omega) halloc
  refine ⟨⟨?_, ?_, ?_, ?_, ?_, ?_⟩, rfl, ?_, ?_, ?_⟩
  · show pageSize ∣ newSize - headerSize - 1 + 1 + headerSize
    rw [hsize]
    exact hdvd
  · show newSize - headerSize - 1 + 1 + headerSize < 2 ^ 32
    rw [hsize]
    exact hlt
  · show pool.size ≤ newSize - headerSize - 1
    omega
  · intro i hi
    change i < pool.size at hi
    dsimp only
    rw [if_neg (by omega), if_neg (by omega)]
    exact hpool.nonzero i hi
  · intro i hi hcap
    change pool.size ≤ i at hi
    change i ≤ newSize - headerSize - 1 at hcap
    dsimp only
    split
    next => rfl
    next hout =>
      split
      next hfresh =>
        have hi' : headerSize + i =
            pool.capacity + 1 + headerSize + (newSize - (pool.capacity + 1 + headerSize)) - 1 := by
          omega
        rw [hi']
        exact hlast
      next hold => exact hpool.zeros i hi (by omega)
  · refine Tiling.tiles_concat.mpr ⟨hpool.mapped, ?_, ?_⟩
    · show pool.capacity + 1 + headerSize < _ + (newSize - (pool.capacity + 1 + headerSize))
      omega
    · show pool.capacity + 1 + headerSize + (newSize - _) = newSize - headerSize - 1 + 1 + headerSize
      omega
  · show pool.capacity + minSize ≤ newSize - headerSize - 1
    omega
  · show newSize - headerSize - 1 < 2 ^ 32
    omega
  · intro i hi
    dsimp only
    rw [if_neg (by omega), if_neg (by omega)]

theorem copyInto_data_of_le {left : List UInt8} {i : ℕ} (h : (pool.copyInto left).size ≤ i) :
    (pool.copyInto left).data i = pool.data i :=
  if_neg fun hin => Nat.not_lt.mpr h hin.2

theorem Heaped.copyInto (h : Heaped pool) {left : List UInt8} (hzero : 0 ∉ left) :
    Heaped (pool.copyInto left) := by
  have hcopy := copyCnt_le pool left
  refine ⟨h.pages, h.bound, copyInto_size_le h.size_le left, ?_, ?_, h.mapped⟩
  · intro i hi
    change i < pool.size + pool.copyCnt left at hi
    show (if _ then _ else _) ≠ (0 : UInt8)
    split
    next hin =>
      rw [List.getD_eq_getElem _ _ (by omega)]
      intro hbyte
      exact hzero (hbyte ▸ List.getElem_mem _)
    next hout => exact h.nonzero i (by omega)
  · intro i hi hcap
    rw [copyInto_data_of_le hi]
    exact h.zeros i (Nat.le_trans (Nat.le_add_right _ _) hi) hcap

theorem Heaped.clear (h : Heaped pool) : Heaped pool.clear := by
  refine ⟨h.pages, h.bound, Nat.zero_le _, (fun i hi => nomatch hi), ?_, h.mapped⟩
  intro i _ hcap
  show (if i < pool.size then 0 else pool.data i) = 0
  split
  next => rfl
  next hout => exact h.zeros i (Nat.le_of_not_lt hout) hcap

theorem growsOn_kernelHeap (hbounded : Bounded alloc) (hfit : Fit alloc) :
    GrowsOn Heaped (kernelHeap alloc) where
  acquire _ _ _ h := acquire_heaped hbounded h
  enlarge _ _ _ hpos hpool h := enlarge_heaped hbounded hfit hpos hpool h
  copyInto _ _ hzero hpool := hpool.copyInto hzero

/-! ## Dumping -/

theorem extent_of_tiles {lo hi : ℕ} {ranges : List (ℕ × ℕ)}
    (h : Tiling.Tiles Prod.fst (fun r : ℕ × ℕ => r.1 + r.2) lo ranges hi) :
    extent lo ranges = hi := by
  induction ranges generalizing lo with
  | nil => exact h
  | cons r ranges ih =>
      obtain ⟨rfl, -, hrest⟩ := h
      exact (if_pos rfl).trans (ih hrest)

/-- A pool is a string of its characters. -/
theorem Heaped.getString_eq (h : Heaped pool) : ∃ rest, getString pool = pool.chars ++ 0 :: rest := by
  obtain ⟨k, hk⟩ := Nat.exists_eq_add_of_le h.size_le
  have hlen : extent 0 pool.ranges - headerSize = pool.size + (k + 1) := by
    rw [extent_of_tiles h.mapped]
    omega
  refine ⟨((List.range k).map Nat.succ).map fun i => pool.data (pool.size + i), ?_⟩
  unfold getString CharPool.chars
  rw [hlen, List.range_add, List.map_append, List.range_succ_eq_map, List.map_cons, List.map_cons,
    List.map_map]
  congr 2
  exact h.zeros _ (Nat.le_refl _) h.size_le

theorem Heaped.zero_notMem (h : Heaped pool) : 0 ∉ pool.chars := by
  intro hmem
  obtain ⟨i, hi, hzero⟩ := List.mem_map.mp hmem
  exact h.nonzero i (List.mem_range.mp hi) hzero

theorem dump_cons {target : List UInt8 → HandleResult × UInt32} {n : ℕ} {found : UInt32}
    (hlen : strlen (getString pool) = some n)
    (htext : target ((getString pool).take n) = (.okay, found)) (res : HandleResult × UInt32) :
    dump target (pool :: pools) res =
      (dump target pools (.okay, found + res.2)).map
        fun r => (r.1, (getString pool).take n ++ r.2) := by
  show (match strlen (getString pool) with
    | none => none
    | some n =>
        match target ((getString pool).take n) with
        | (.okay, size) =>
            (dump target pools (.okay, size + res.2)).map
              fun r : (HandleResult × UInt32) × List UInt8 => (r.1, (getString pool).take n ++ r.2)
        | (err, size) => some ((err, size), (getString pool).take n)) = _
  rw [hlen]
  dsimp only
  rw [htext]

theorem dump_heaped {target : List UInt8 → HandleResult × UInt32}
    (htarget : ∀ text, (target text).1 = .okay) (h : ∀ pool ∈ pools, Heaped pool) (size : UInt32) :
    ∃ res, dump target pools (.okay, size) = some (res, held pools) := by
  induction pools generalizing size with
  | nil => exact ⟨_, rfl⟩
  | cons pool pools ih =>
      obtain ⟨hpool, hpools⟩ := List.forall_mem_cons.mp h
      obtain ⟨rest, hstring⟩ := hpool.getString_eq
      have hlen : strlen (getString pool) = some pool.chars.length := by
        rw [hstring, strlen_append hpool.zero_notMem]
      have htake : (getString pool).take pool.chars.length = pool.chars := by
        rw [hstring, List.take_left]
      have htext := htarget pool.chars
      cases hres : target pool.chars with
      | mk err found =>
          rw [hres] at htext
          subst htext
          obtain ⟨res, hdump⟩ := ih hpools (found + size)
          rw [dump_cons hlen (htake.symm ▸ hres), hdump, htake, held_cons]
          exact ⟨res, rfl⟩

/-! ## All runs -/

structure Inv (s : State) : Prop where
  chain : Chain s.term.pools
  heaped : ∀ pool ∈ s.term.pools, Heaped pool

variable {s : State}

theorem Reachable.inv (h : Reachable Fit s) : Inv s := by
  induction h with
  | start => exact ⟨chain_nil, fun pool hpool => nomatch hpool⟩
  | write str inLen _ hbounded hfit hs ih =>
      obtain ⟨res, n, term', hwrite, -, -, hchain, -, -, hheaped⟩ :=
        internalWrite_spec (growsOn_kernelHeap hbounded hfit) ih.chain ih.heaped str inLen
      unfold perform at hs
      dsimp only at hs
      rw [hwrite] at hs
      obtain rfl := Option.some.inj hs
      exact ⟨hchain, hheaped⟩
  | clear _ hs ih =>
      obtain rfl := Option.some.inj hs
      refine ⟨chain_clear ih.chain, ?_⟩
      intro pool hpool
      obtain ⟨old, hold, rfl⟩ := List.mem_map.mp hpool
      exact (ih.heaped old hold).clear

/-- The cache is dumped as it was written in every run where the last byte of the fresh pages is
zero whenever a pool is enlarged. -/
theorem dumps (h : Reachable Fit s) : Dumps s := by
  have hinv := h.inv
  refine ⟨fun pool hpool => (hinv.heaped pool hpool).zeros, ?_, ?_⟩
  · intro pool hpool
    have hpool := hinv.heaped pool hpool
    rw [roundUp_of_dvd hpool.pages]
    exact hpool.mapped
  · intro target htarget
    exact dump_heaped htarget hinv.heaped 0

/-! ## A pool that is filled and enlarged -/

variable {f : CharPoolFuncs} {str : CString} {c : Counters}

theorem take_chars (str : CString) : str.chars.take str.length = str.chars := List.take_length

theorem copyIntoPool_nil (left : List UInt8) (c : Counters) :
    copyIntoPool [] left c = ⟨[], left, c⟩ := rfl

variable {left : List UInt8}

theorem grow_acquired (rounds : ℕ) (hne : left ≠ []) (hacquire : f.acquirePool left.length = .ok pool)
    (hroom : left.length ≤ pool.capacity - pool.size) :
    grow f (rounds + 1) ⟨[], left, c⟩ =
      some (.okay, ⟨[pool.copyInto left], [], c.copied left.length⟩) := by
  unfold grow
  rw [if_neg hne]
  dsimp only
  rw [hacquire]
  dsimp only
  rw [copyIntoPool_room hroom, grow_done f rounds rfl]
  rfl

theorem grow_enlarged (rounds : ℕ) (hne : left ≠ [])
    (henlarge : f.enlargePool left.length pool = .ok pool')
    (hroom : left.length ≤ pool'.capacity - pool'.size) :
    grow f (rounds + 1) ⟨[pool], left, c⟩ =
      some (.okay, ⟨[pool'.copyInto left], [],
        (c.enlarged ((pool'.capacity + 2 ^ 32 - pool.capacity) % 2 ^ 32)).copied left.length⟩) := by
  have hlast : enlargeLast f [pool] left c =
      some (pool', c.enlarged ((pool'.capacity + 2 ^ 32 - pool.capacity) % 2 ^ 32)) := by
    unfold enlargeLast
    dsimp only [List.getLast?_singleton]
    rw [henlarge]
  unfold grow
  rw [if_neg hne]
  dsimp only
  rw [hlast]
  dsimp only
  rw [copyIntoPool_room hroom, grow_done f rounds rfl]
  rfl

/-- A first text is acquired a pool for. -/
theorem internalWrite_first (hne : str.length ≠ 0) (hacquire : f.acquirePool str.length = .ok pool)
    (hroom : str.length ≤ pool.capacity - pool.size) :
    internalWrite f ⟨[], c⟩ str str.length =
      some (.okay, UInt32.ofNat str.length, ⟨[pool.copyInto str.chars], c.copied str.length⟩) := by
  have hgrow := grow_acquired (c := c) (str.length - 1)
    (fun h : str.chars = [] => hne (congrArg List.length h)) hacquire hroom
  rw [Nat.sub_add_cancel (Nat.pos_of_ne_zero hne)] at hgrow
  unfold internalWrite
  rw [take_chars]
  dsimp only [List.takeWhile_nil, List.dropWhile_nil, List.nil_append]
  rw [copyIntoPool_nil, ← CString.length, if_neg hne, hgrow]
  rfl

/-- For a text behind a full pool the pool is enlarged. -/
theorem internalWrite_full (hne : str.length ≠ 0) (hfull : pool.size = pool.capacity)
    (henlarge : f.enlargePool str.length pool = .ok pool')
    (hroom : str.length ≤ pool'.capacity - pool'.size) :
    internalWrite f ⟨[pool], c⟩ str str.length =
      some (.okay, UInt32.ofNat str.length, ⟨[pool'.copyInto str.chars],
        (c.enlarged ((pool'.capacity + 2 ^ 32 - pool.capacity) % 2 ^ 32)).copied str.length⟩) := by
  have hgrow := grow_enlarged (c := c) (str.length - 1)
    (fun h : str.chars = [] => hne (congrArg List.length h)) henlarge hroom
  rw [Nat.sub_add_cancel (Nat.pos_of_ne_zero hne)] at hgrow
  have hnone : pool.hasRoom = false := decide_eq_false (Nat.not_lt.mpr (Nat.le_of_eq hfull.symm))
  unfold internalWrite
  rw [take_chars]
  dsimp only
  rw [List.takeWhile_cons_of_pos (by rw [hnone]; rfl),
    List.dropWhile_cons_of_pos (by rw [hnone]; rfl)]
  dsimp only [List.takeWhile_nil, List.dropWhile_nil]
  rw [copyIntoPool_nil, ← CString.length, if_neg hne, List.append_nil, hgrow]
  rfl

theorem perform_write {term : CacheTerminal} {res : HandleResult} (hlt : str.length < 2 ^ 32)
    (h : internalWrite f s.term str str.length = some (res, UInt32.ofNat str.length, term)) :
    perform s (.write f str str.length) = some ⟨term, s.log ++ str.chars, s.short⟩ := by
  unfold perform
  dsimp only
  rw [h, take_chars]
  have hcount : (UInt32.ofNat str.length).toNat = str.length := UInt32.toNat_ofNat_of_lt' hlt
  dsimp only
  rw [hcount, take_chars, decide_eq_true (show str.chars.length < 2 ^ 32 from hlt), Bool.and_true]

/-- Fresh pages that hold one byte all over. -/
def freshPages (b : UInt8) : AllocatePages := fun offset size =>
  if offset + size < 2 ^ 32 then .ok fun _ => b else .error .outOfMemory

theorem freshPages_ok {b : UInt8} {offset size : ℕ} {bytes : ℕ → UInt8}
    (h : freshPages b offset size = .ok bytes) : offset + size < 2 ^ 32 ∧ bytes = fun _ => b := by
  unfold freshPages at h
  split at h
  next hlt => exact ⟨hlt, (Except.ok.inj h).symm⟩
  next => exact nomatch h

theorem freshPages_bounded (b : UInt8) : Bounded (freshPages b) :=
  fun _ _ _ h => (freshPages_ok h).1

theorem freshPages_fit : Fit (freshPages 0) := by
  intro offset size bytes _ h
  rw [(freshPages_ok h).2]

def letters (n : ℕ) : CString :=
  ⟨List.replicate n 97, fun h => absurd (List.eq_of_mem_replicate h) (by decide)⟩

theorem letters_length (n : ℕ) : (letters n).length = n := List.length_replicate

/-- What a first page is acquired as. -/
def fresh (b : UInt8) : CharPool :=
  ⟨0, 4079, fun i => if i < 4080 then 0 else b, [(0, 4096)]⟩

/-- The pool once it is filled to the brim. -/
def full (b : UInt8) : CharPool := (fresh b).copyInto (letters 4079).chars

/-- The full pool with a second page. -/
def grown (b : UInt8) : CharPool where
  size := (full b).size
  capacity := 8175
  data := fun i => if 4079 ≤ i ∧ i < 8175 then 0 else if 4096 ≤ headerSize + i then b
    else (full b).data i
  ranges := [(0, 4096), (4096, 4096)]

theorem full_size (b : UInt8) : (full b).size = 4079 := by
  show 0 + min (4079 - 0) (letters 4079).length = 4079
  rw [letters_length, Nat.sub_zero, Nat.min_self, Nat.zero_add]

theorem fresh_acquired (b : UInt8) :
    acquireCharPoolInKernelHeap (freshPages b) 4079 = .ok (fresh b) := by
  have hsize : roundUp (4079 + 1 + headerSize) = 4096 := by decide
  have hcap : 4096 - headerSize - 1 = 4079 := by decide
  have hpages : freshPages b 0 4096 = .ok fun _ => b := if_pos (by decide)
  have hmod : 4079 % 2 ^ 32 = 4079 := by decide
  unfold acquireCharPoolInKernelHeap
  rw [hsize]
  dsimp only
  rw [hpages, hcap]
  dsimp only
  rw [hmod]
  rfl

theorem full_enlarged (b : UInt8) :
    enlargeCharPoolInKernelHeap (freshPages b) 1 (full b) = .ok (grown b) := by
  have hcap : (full b).capacity = 4079 := rfl
  have hold : roundUp ((4079 + 1) % 2 ^ 32 + headerSize) = 4096 := by decide
  have hnew : roundUp ((4079 + 1) % 2 ^ 32 + headerSize + 1) = 8192 := by decide
  have hpages : freshPages b 4096 (8192 - 4096) = .ok fun _ => b := if_pos (by decide)
  have hnewCap : (8192 - headerSize - 1) % 2 ^ 32 = 8175 := by decide
  have hend : 4079 + (8175 + 2 ^ 32 - 4079) % 2 ^ 32 = 8175 := by decide
  unfold enlargeCharPoolInKernelHeap
  rw [hcap, hold, hnew]
  dsimp only
  rw [hpages, hnewCap]
  dsimp only
  rw [hend]
  rfl

theorem grown_data {b : UInt8} {i : ℕ} (h : 8175 ≤ i) : (grown b).data i = b := by
  unfold grown
  dsimp only
  rw [if_neg fun hin => Nat.not_lt.mpr h hin.2, if_pos (by omega)]

theorem grown_copied_size (b : UInt8) : ((grown b).copyInto (letters 1).chars).size = 4080 := by
  have hsize : (grown b).size = 4079 := full_size b
  have hcopy : (grown b).copyCnt (letters 1).chars = 1 := by
    unfold CharPool.copyCnt
    rw [hsize]
    show min (8175 - 4079) 1 = 1
    decide
  show (grown b).size + (grown b).copyCnt (letters 1).chars = 4080
  rw [hsize, hcopy]

def filled (b : UInt8) : State where
  term := ⟨[full b], start.term.counters.copied (letters 4079).length⟩
  log := start.log ++ (letters 4079).chars
  short := start.short

/-- After one character more. -/
def enlarged (b : UInt8) : State where
  term := ⟨[(grown b).copyInto (letters 1).chars],
    ((filled b).term.counters.enlarged ((8175 + 2 ^ 32 - 4079) % 2 ^ 32)).copied (letters 1).length⟩
  log := (filled b).log ++ (letters 1).chars
  short := (filled b).short

theorem enlarged_reachable {Allowed : AllocatePages → Prop} (b : UInt8)
    (hallowed : Allowed (freshPages b)) : Reachable Allowed (enlarged b) := by
  have hbounded := freshPages_bounded b
  have hfirst : perform start
      (.write (kernelHeap (freshPages b)) (letters 4079) (letters 4079).length) =
        some (filled b) := by
    have hlen := letters_length 4079
    have hacquired : (kernelHeap (freshPages b)).acquirePool (letters 4079).length =
        .ok (fresh b) := by
      rw [hlen]
      exact fresh_acquired b
    refine perform_write (by rw [hlen]; decide) (internalWrite_first (by rw [hlen]; decide)
      hacquired ?_)
    rw [hlen]
    show 4079 ≤ 4079 - 0
    decide
  have hsecond : perform (filled b)
      (.write (kernelHeap (freshPages b)) (letters 1) (letters 1).length) = some (enlarged b) := by
    refine perform_write (by decide)
      (internalWrite_full (by decide) (full_size b) (full_enlarged b) ?_)
    show 1 ≤ 8175 - (full b).size
    rw [full_size]
    decide
  exact .write (letters 1) (letters 1).length
    (.write (letters 4079) (letters 4079).length .start hbounded hallowed hfirst)
    hbounded hallowed hsecond

theorem dumps_enlarged : Dumps (enlarged 0) := dumps (enlarged_reachable 0 freshPages_fit)

/-- The terminator of an enlarged pool is whatever the fresh page held there. -/
theorem not_dumps : ¬ ∀ s, Reachable (fun _ => True) s → Dumps s := by
  intro h
  have hzeros := (h _ (enlarged_reachable 0xCA trivial)).zeros _ List.mem_cons_self 8175
  have hsize := grown_copied_size 0xCA
  have hbyte := hzeros (by rw [hsize]; decide) (Nat.le_refl _)
  rw [copyInto_data_of_le (by rw [hsize]; decide), grown_data (Nat.le_refl _)] at hbyte
  exact absurd hbyte (by decide)

end Beelzebub.CachePools
