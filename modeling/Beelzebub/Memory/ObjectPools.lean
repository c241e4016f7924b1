import Beelzebub.Lib.Linked
import Beelzebub.Lib.Rounding
import Beelzebub.Lib.Word
import Mathlib.Data.Nat.Notation
import Mathlib.Logic.Function.Basic
import Mathlib.Tactic.Linarith

/-!
# Object pools in the kernel heap

A pool is a header followed by objects, on pages of its own.  The free objects are linked by
index, and the header has the first one, the last one and their number.  A pool is filled when
it is acquired and when it is enlarged by the same loop.

A null pointer that is written through, an assumption that does not hold and an assertion that
fails are the outcome `none`.
-/

namespace Beelzebub.Objects

/-! ## The code -/

/-- `obj_ind_invalid`. -/
def objIndInvalid : ℕ := 0xFFFFFFFF

def pageSize : ℕ := 4096

/-- `RoundUp` to a page. -/
def roundUp (value : ℕ) : ℕ := (value + (pageSize - 1)) % 2 ^ 64 / pageSize * pageSize

/-- What the constructor of an allocator computes: a free object fits in an object, and the
fields of a pool fit in the header. -/
structure Sizes where
  objectSize : ℕ
  headerSize : ℕ
  object_le : 8 ≤ objectSize
  header_le : 24 ≤ headerSize

/-- A pool.  The links of its free objects are by index. -/
structure ObjectPool where
  freeCount : ℕ
  capacity : ℕ
  firstFreeObject : ℕ
  lastFreeObject : ℕ
  next : Option ℕ
  objects : ℕ → ℕ

namespace Sizes

/-- The size of a pool with so many objects. -/
def poolSize (z : Sizes) (count : ℕ) : ℕ := roundUp ((z.objectSize * count + z.headerSize) % 2 ^ 64)

/-- The objects that a pool of this size has. -/
def objectCount (z : Sizes) (size : ℕ) : ℕ := Word.sub size z.headerSize / z.objectSize

def objectAt (z : Sizes) (pool i : ℕ) : ℕ := pool + z.headerSize + i * z.objectSize

end Sizes

namespace ObjectPool

/-- The constructor.  What the pages hold otherwise is not read. -/
def blank : ObjectPool := ⟨0, 0, objIndInvalid, objIndInvalid, none, fun _ => 0⟩

/-- The loop that links the objects from `i` on, so many, to one another. -/
def link : Option ℕ → ℕ → ℕ → ObjectPool → Option ℕ × ObjectPool
  | last, _, 0, p => (last, p)
  | none, i, n + 1, p => link (some i) (i + 1) n { p with firstFreeObject := i }
  | some l, i, n + 1, p =>
      link (some i) (i + 1) n { p with objects := Function.update p.objects l i }

/-- After the loop. -/
def close (count : ℕ) : Option ℕ × ObjectPool → Option ObjectPool
  | (none, _) => none
  | (some last, p) =>
      some { p with lastFreeObject := (count + 2 ^ 32 - 1) % 2 ^ 32,
                    objects := Function.update p.objects last objIndInvalid }

/-- `FillPool`, which assumes that there are objects. -/
def fill (count : ℕ) (p : ObjectPool) : Option ObjectPool :=
  close count (link none 0 count { p with capacity := count, freeCount := count })

/-- `AcquirePoolInKernelHeap`, once it has pages. -/
@[irreducible]
def acquire (z : Sizes) (minimumObjects : ℕ) : Option ObjectPool :=
  blank.fill (z.objectCount (z.poolSize minimumObjects) % 2 ^ 32)

/-- `EnlargePoolInKernelHeap`, where the pages behind the pool are granted or not. -/
@[irreducible]
def enlarge (z : Sizes) (minimumExtraObjects : ℕ) (granted : Bool) (p : ObjectPool) :
    Option ObjectPool :=
  let oldSize := z.poolSize p.capacity
  let newSize := z.poolSize (p.capacity + minimumExtraObjects)
  if newSize > oldSize then
    if granted then
      let newCount := z.objectCount newSize % 2 ^ 32
      let last := if p.freeCount > 0 then some p.lastFreeObject else none
      (close newCount (link last p.capacity (newCount - p.capacity) p)).map fun q =>
        { q with capacity := newCount
                 freeCount := (q.freeCount + (newCount + 2 ^ 32 - p.capacity)) % 2 ^ 32 }
    else some p
  else none

/-- The free objects, in the order in which they are linked. -/
def Free (p : ObjectPool) (frees : List ℕ) : Prop :=
  Linked.Chain (fun i => Linked.link objIndInvalid (p.objects i))
    (Linked.link objIndInvalid p.firstFreeObject) frees

end ObjectPool

/-! ## Sizes -/

namespace Sizes

variable {z : Sizes} {n c : ℕ}

/-- The sizes of a pool for so many objects do not overflow. -/
def Representable (z : Sizes) (n : ℕ) : Prop := z.objectSize * n + z.headerSize + pageSize ≤ 2 ^ 64

/-- A pool of this capacity is all of its pages, but for less than an object. -/
structure Exact (z : Sizes) (c : ℕ) : Prop where
  representable : z.Representable c
  full : z.poolSize c < z.headerSize + z.objectSize * (c + 1)
  bound : c < 2 ^ 32

theorem poolSize_eq (h : z.Representable n) :
    z.poolSize n = Rounding.up pageSize (z.objectSize * n + z.headerSize) := by
  unfold Representable pageSize at h
  rw [Rounding.up_eq (by decide), poolSize, roundUp, pageSize,
    Nat.mod_eq_of_lt (a := z.objectSize * n + z.headerSize) (by omega), Nat.mod_eq_of_lt (by omega)]

theorem le_poolSize (h : z.Representable n) :
    z.objectSize * n + z.headerSize ≤ z.poolSize n := by
  rw [poolSize_eq h]
  exact Rounding.le_up (by decide)

theorem poolSize_lt (h : z.Representable n) :
    z.poolSize n + pageSize ≤ 2 ^ 64 := by
  have hle : z.objectSize * n + z.headerSize ≤ pageSize * (2 ^ 52 - 1) := by
    unfold Representable pageSize at h
    unfold pageSize
    omega
  have hup := Rounding.up_le (by decide) hle
  rw [← poolSize_eq h] at hup
  exact Nat.add_le_add_right hup pageSize

theorem objectCount_eq {size : ℕ} (h : z.headerSize ≤ size) (hsize : size < 2 ^ 64) :
    z.objectCount size = Rounding.items z.objectSize z.headerSize size := by
  rw [objectCount, Word.sub_of_le hsize h, Rounding.items]

/-- As many objects as fit: at least those asked for, and they need the same pages. -/
theorem objectCount_exact (h : z.Representable n)
    (hbound : z.objectCount (z.poolSize n) < 2 ^ 32) :
    n ≤ z.objectCount (z.poolSize n) ∧ z.Exact (z.objectCount (z.poolSize n)) ∧
      z.poolSize (z.objectCount (z.poolSize n)) = z.poolSize n := by
  have hpage : 0 < pageSize := by decide
  have hpos : 0 < z.objectSize := Nat.lt_of_lt_of_le (by decide) z.object_le
  have hle := le_poolSize h
  have hlt := poolSize_lt h
  have hskip : z.headerSize ≤ z.poolSize n := by omega
  have hcount := objectCount_eq hskip (by omega)
  obtain ⟨hroom, hfull⟩ := Rounding.items_spec hpos hskip
  rw [← hcount] at hroom hfull
  have hrep : z.Representable (z.objectCount (z.poolSize n)) :=
    (Nat.add_le_add_right hroom pageSize).trans hlt
  have hsame : z.poolSize (z.objectCount (z.poolSize n)) = z.poolSize n := by
    rw [poolSize_eq hrep, hcount, poolSize_eq h]
    exact Rounding.up_items hpage hpos
  refine ⟨?_, ⟨hrep, ?_, hbound⟩, hsame⟩
  · rw [hcount, poolSize_eq h]
    exact Rounding.le_items hpage hpos
  · rw [hsame]
    omega

/-- With room for one more object the pool is larger. -/
theorem poolSize_lt_poolSize {extra : ℕ} (hc : z.Exact c) (h : z.Representable (c + extra))
    (hextra : 0 < extra) : z.poolSize c < z.poolSize (c + extra) := by
  have hle := le_poolSize h
  have hmul := Nat.mul_le_mul_left z.objectSize (show c + 1 ≤ c + extra by omega)
  have := hc.full
  omega

end Sizes

/-! ## Linking objects -/

namespace ObjectPool

variable {p q : ObjectPool} {i n l j count : ℕ} {z : Sizes}

/-- The links after the loop, behind the object `l`. -/
def linked (objects : ℕ → ℕ) (l i n j : ℕ) : ℕ :=
  if j = l ∧ 0 < n then i
  else if i ≤ j ∧ j + 1 < i + n then j + 1
  else objects j

theorem linked_zero (objects : ℕ → ℕ) : linked objects l i 0 = objects := by
  funext j
  unfold linked
  rw [if_neg (by omega), if_neg (by omega)]

theorem linked_update (objects : ℕ → ℕ) (hl : l < i) :
    linked (Function.update objects l i) i (i + 1) n = linked objects l i (n + 1) := by
  funext j
  unfold linked
  by_cases hj : j = l
  · subst hj
    rw [if_neg (by omega), if_neg (by omega), if_pos ⟨rfl, Nat.succ_pos n⟩, Function.update_self]
  · rw [Function.update_of_ne hj, if_neg (c := j = l ∧ 0 < n + 1) (fun h => hj h.1)]
    by_cases hi : j = i ∧ 0 < n
    · rw [if_pos hi, if_pos (by omega), hi.1]
    · rw [if_neg hi]
      by_cases hr : i ≤ j ∧ j + 1 < i + (n + 1)
      · rw [if_pos hr, if_pos (by omega)]
      · rw [if_neg hr, if_neg (by omega)]

theorem link_some (hl : l < i) :
    link (some l) i n p =
      (some (if n = 0 then l else i + n - 1), { p with objects := linked p.objects l i n }) := by
  induction n generalizing l i p with
  | zero =>
      rw [linked_zero]
      rfl
  | succ n ih =>
      rw [link, ih (Nat.lt_succ_self i), linked_update p.objects hl, if_neg (Nat.succ_ne_zero n)]
      congr 2
      split <;> omega

/-- Linked afresh and closed, the objects are all free and in order. -/
theorem close_link (p : ObjectPool) (count : ℕ) (hn : 0 < n) (hbound : i + n < 2 ^ 32) :
    ∃ q, close count (link none i n p) = some q ∧ q.Free (List.range' i n) ∧
      q.capacity = p.capacity ∧ q.freeCount = p.freeCount ∧ q.next = p.next := by
  obtain ⟨n, rfl⟩ : ∃ k, n = k + 1 := ⟨n - 1, by omega⟩
  have hlast : (if n = 0 then i else i + 1 + n - 1) = i + n := by
    split <;> omega
  rw [link, link_some (Nat.lt_succ_self i), hlast]
  refine ⟨_, rfl, ?_, rfl, rfl, rfl⟩
  have hvalid : ∀ j, j < i + (n + 1) → Linked.link objIndInvalid j = some j := by
    intro j hj
    refine Linked.link_of_ne ?_
    unfold objIndInvalid
    omega
  have hstart : Linked.link objIndInvalid i =
      if n + 1 = 0 then none else some i := by
    rw [hvalid i (by omega), if_neg (Nat.succ_ne_zero n)]
  unfold Free
  dsimp only
  rw [hstart]
  refine Linked.chain_range' fun j hij hj => ?_
  by_cases hend : j = i + n
  · rw [hend, Function.update_self, if_neg (by omega), Linked.link_null]
  · have hnext : linked p.objects i (i + 1) n j = j + 1 := by
      unfold linked
      by_cases hji : j = i
      · rw [if_pos ⟨hji, by omega⟩, hji]
      · rw [if_neg (fun h => hji h.1), if_pos (by omega)]
    rw [Function.update_of_ne hend, if_pos (by omega), hnext, hvalid _ (by omega)]

/-- What `AcquirePool` brings: a pool that fills its pages, with all objects free. -/
theorem acquire_spec {minimumObjects : ℕ} (h : z.Representable minimumObjects)
    (hpos : 0 < z.objectCount (z.poolSize minimumObjects))
    (hbound : z.objectCount (z.poolSize minimumObjects) < 2 ^ 32) :
    ∃ p, acquire z minimumObjects = some p ∧ 0 < p.capacity ∧ z.Exact p.capacity ∧
      z.poolSize p.capacity = z.poolSize minimumObjects ∧ p.freeCount = p.capacity ∧
      p.capacity = z.objectCount (z.poolSize minimumObjects) ∧
      p.Free (List.range' 0 p.capacity) := by
  obtain ⟨-, hexact, hsame⟩ := Sizes.objectCount_exact h hbound
  unfold acquire fill
  rw [Nat.mod_eq_of_lt hbound]
  generalize z.objectCount (z.poolSize minimumObjects) = count at hpos hbound hexact hsame ⊢
  obtain ⟨p, hp, hfree, hcap, hcount, -⟩ :=
    close_link { blank with capacity := count, freeCount := count } count hpos
      (show 0 + count < 2 ^ 32 by omega)
  refine ⟨p, hp, ?_, ?_, ?_, ?_, hcap, ?_⟩
  · rw [hcap]
    exact hpos
  · rw [hcap]
    exact hexact
  · rw [hcap]
    exact hsame
  · rw [hcap, hcount]
  · rw [hcap]
    exact hfree

/-- What `EnlargePool` does to a full pool: nothing, or it adds free objects at the end. -/
theorem enlarge_spec {extra : ℕ} {granted : Bool} (hexact : z.Exact p.capacity)
    (hnone : p.freeCount = 0) (hextra : 0 < extra) (h : z.Representable (p.capacity + extra))
    (hbound : granted = true → z.objectCount (z.poolSize (p.capacity + extra)) < 2 ^ 32) :
    (granted = false ∧ enlarge z extra granted p = some p) ∨
      ∃ q, granted = true ∧ enlarge z extra granted p = some q ∧ p.capacity < q.capacity ∧
        z.Exact q.capacity ∧ z.poolSize q.capacity = z.poolSize (p.capacity + extra) ∧
        q.freeCount = q.capacity - p.capacity ∧ q.next = p.next ∧
        q.Free (List.range' p.capacity (q.capacity - p.capacity)) := by
  have hlt := Sizes.poolSize_lt_poolSize hexact h hextra
  unfold enlarge
  dsimp only
  rw [if_pos hlt]
  cases granted with
  | false => exact Or.inl ⟨rfl, rfl⟩
  | true =>
      have hcount := hbound rfl
      obtain ⟨hle, hexact', hsame⟩ := Sizes.objectCount_exact h hcount
      rw [if_pos rfl, hnone, if_neg (Nat.lt_irrefl 0), Nat.mod_eq_of_lt hcount]
      generalize z.objectCount (z.poolSize (p.capacity + extra)) = count at hcount hle hexact' hsame ⊢
      have hmore : 0 < count - p.capacity := by omega
      have hend : p.capacity + (count - p.capacity) < 2 ^ 32 := by omega
      obtain ⟨q, hq, hfree, -, hfreeCount, hnext⟩ :=
        close_link p count hmore hend
      have hgrow : (q.freeCount + (count + 2 ^ 32 - p.capacity)) % 2 ^ 32 = count - p.capacity := by
        rw [hfreeCount, hnone]
        omega
      rw [hq, Option.map_some, hgrow]
      exact Or.inr ⟨{ q with capacity := count, freeCount := count - p.capacity }, rfl, rfl,
        Nat.lt_of_sub_pos hmore, hexact', hsame, rfl, hnext, hfree⟩

end ObjectPool

end Beelzebub.Objects
