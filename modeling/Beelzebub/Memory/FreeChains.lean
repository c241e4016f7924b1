import Beelzebub.Memory.ObjectAllocator

/-!
# The end of the free chain

The header of a pool has the index of the last free object, so that the objects of a grown pool
go behind it.  `AllocateObject` forgets it with the last free object, and `DeallocateObject`
does not write it.

A run is about one pool: what the allocator does to it between its acquisition and its release.
-/

namespace Beelzebub.Objects

namespace ObjectPool

/-- What `AllocateObject` does to the pool that it takes an object from. -/
def take (cfg : Config) (estimatedLeft : ℕ) (granted : Bool) (p : ObjectPool) :
    Option ObjectPool :=
  let q := ObjectAllocator.pop p
  if q.freeCount = 0 then ObjectAllocator.refill cfg estimatedLeft granted q else some q

/-- What `DeallocateObject` does to the pool of the object. -/
def put (i : ℕ) (p : ObjectPool) : ObjectPool :=
  { p with objects := Function.update p.objects i p.firstFreeObject, firstFreeObject := i
           freeCount := p.freeCount + 1 }

/-- A pool and the indices of its busy objects, after calls whose deallocations meet a condition.
A pool that is acquired behind a full chain is taken from at once. -/
inductive Run (cfg : Config) (kind : ObjectPool → ℕ → Prop) : ObjectPool → List ℕ → Prop where
  | acquired {n : ℕ} {p : ObjectPool} : acquire cfg.sizes n = some p → Run cfg kind p []
  | appended {n : ℕ} {p : ObjectPool} : acquire cfg.sizes n = some p →
      Run cfg kind (ObjectAllocator.pop p) [p.firstFreeObject]
  | allocate {p q : ObjectPool} {live : List ℕ} {estimatedLeft : ℕ} {granted : Bool} :
      Run cfg kind p live → p.freeCount ≠ 0 → p.take cfg estimatedLeft granted = some q →
      Run cfg kind q (p.firstFreeObject :: live)
  | deallocate {p : ObjectPool} {live : List ℕ} {i : ℕ} : Run cfg kind p live → i ∈ live →
      kind p i → Run cfg kind (p.put i) (live.erase i)
  /-- The pool has another one behind it. -/
  | relink {p : ObjectPool} {live : List ℕ} {next : Option ℕ} : Run cfg kind p live →
      Run cfg kind { p with next := next } live
  /-- The program writes to an object. -/
  | write {p : ObjectPool} {live : List ℕ} {i value : ℕ} : Run cfg kind p live → i ∈ live →
      Run cfg kind { p with objects := Function.update p.objects i value } live

/-- `LastFreeObject` is the end of the chain, if there is one. -/
def Ended (p : ObjectPool) : Prop :=
  0 < p.freeCount → ∃ frees, p.Free frees ∧ frees.getLast? = some p.lastFreeObject

/-- Where the returned object is to become the last one, it is that already, or another one stays
the last. -/
def KeepsEnd (p : ObjectPool) (i : ℕ) : Prop := p.freeCount ≠ 0 ∨ p.lastFreeObject = i

/-- The free objects are linked and counted, and with the busy ones they are all different. -/
structure Kept (p : ObjectPool) (frees live : List ℕ) : Prop where
  free : p.Free frees
  count : p.freeCount = frees.length
  bound : p.capacity < 2 ^ 32
  nodup : (frees ++ live).Nodup
  inside : ∀ i ∈ frees ++ live, i < p.capacity

variable {cfg : Config} {z : Sizes} {p q : ObjectPool} {frees live xs : List ℕ} {i n l count : ℕ}
  {granted : Bool}

/-! ## The allocator and one pool -/

theorem takeFrom_take {s s' : ObjectAllocator} {a estimatedLeft : ℕ} {r : Except HandleResult ℕ}
    (h : s.takeFrom cfg estimatedLeft granted a = some (r, s')) :
    r = .ok (cfg.sizes.objectAt a (s.pools a).firstFreeObject) ∧
      (s.pools a).take cfg estimatedLeft granted = some (s'.pools a) := by
  rw [ObjectAllocator.takeFrom] at h
  rw [take]
  split at h
  · next hlast =>
    rw [if_pos hlast]
    obtain ⟨q, hq, hr⟩ := Option.map_eq_some_iff.mp h
    split at hr
    · obtain ⟨rfl, rfl⟩ := Prod.mk.inj hr
      exact ⟨rfl, hq.trans (congrArg some (Function.update_self a q s.pools).symm)⟩
    · obtain ⟨rfl, rfl⟩ := Prod.mk.inj hr
      exact ⟨rfl, hq.trans (congrArg some (Function.update_self a q s.pools).symm)⟩
  · next hlast =>
    rw [if_neg hlast]
    obtain ⟨rfl, rfl⟩ := Prod.mk.inj (Option.some.inj h)
    exact ⟨rfl, congrArg some (Function.update_self a _ s.pools).symm⟩

theorem putBack_put (s : ObjectAllocator) (o a i : ℕ) :
    (s.putBack cfg o a i).pools a = (s.pools a).put i :=
  Function.update_self _ _ _

theorem append_pop (s : ObjectAllocator) (last a : ℕ) (p : ObjectPool) :
    ((s.append cfg last a p).2.pools a) =
      { ObjectAllocator.pop p with next := (s.pools last).next } :=
  Function.update_self _ _ _

/-! ## Linking the objects of a grown pool -/

theorem Free.congr (h : p.Free xs) (hfirst : q.firstFreeObject = p.firstFreeObject)
    (hobjects : q.objects = p.objects) : q.Free xs := by
  rw [Free, hfirst, hobjects]
  exact h

theorem close_last {x : Option ℕ × ObjectPool} (h : close count x = some q) :
    q.lastFreeObject = (count + 2 ^ 32 - 1) % 2 ^ 32 := by
  obtain ⟨last, p⟩ := x
  cases last with
  | none => cases h
  | some l =>
      obtain rfl := Option.some.inj h
      rfl

/-- The objects in front of the new ones keep what they hold, but for the last free one. -/
theorem close_link_objects {last : Option ℕ} (h : close count (link last i n p) = some q)
    {j : ℕ} (hj : j < i) (hlast : last ≠ some j) : q.objects j = p.objects j := by
  induction n generalizing last i p with
  | zero =>
      cases last with
      | none => cases h
      | some l =>
          obtain rfl := Option.some.inj h
          exact Function.update_of_ne (fun hjl => hlast (congrArg some hjl.symm)) _ _
  | succ n ih =>
      have hnext : some i ≠ some j := fun hij => hj.ne' (Option.some.inj hij)
      cases last with
      | none => exact ih (p := { p with firstFreeObject := i }) h (Nat.lt_succ_of_lt hj) hnext
      | some l =>
          rw [ih (p := { p with objects := Function.update p.objects l i }) h
            (Nat.lt_succ_of_lt hj) hnext]
          exact Function.update_of_ne (fun hjl => hlast (congrArg some hjl.symm)) _ _

/-- Linked behind the last free object and closed, the new objects follow the old ones. -/
theorem close_link_some (hfree : p.Free (xs ++ [l])) (hnodup : (xs ++ [l]).Nodup)
    (hlt : ∀ j ∈ xs ++ [l], j < i) (hn : 0 < n) (hbound : i + n < 2 ^ 32) :
    ∃ q, close count (link (some l) i n p) = some q ∧ q.Free (xs ++ [l] ++ List.range' i n) ∧
      q.capacity = p.capacity ∧ q.freeCount = p.freeCount ∧ q.next = p.next := by
  have hl : l < i := hlt l (List.mem_append_right _ List.mem_cons_self)
  have hsame : ∀ q, close count (link (some l) i n p) = some q → ∀ j ∈ xs,
      q.objects j = p.objects j := by
    intro q hq j hj
    refine close_link_objects hq (hlt j (List.mem_append_left _ hj)) ?_
    rintro hlj
    exact (List.nodup_append.mp hnodup).2.2 j hj l List.mem_cons_self (Option.some.inj hlj).symm
  have hvalid : ∀ j < i + n, Linked.link objIndInvalid j = some j := by
    intro j hj
    refine Linked.link_of_ne ?_
    show j ≠ 0xFFFFFFFF
    omega
  rw [link_some hl, if_neg hn.ne'] at hsame ⊢
  refine ⟨_, rfl, ?_, rfl, rfl, rfl⟩
  refine Linked.Chain.append hfree ?_ ?_
  · intro j hj
    rw [hsame _ rfl j hj]
  · have hfirst : Function.update (linked p.objects l i n) (i + n - 1) objIndInvalid l = i := by
      rw [Function.update_of_ne (by omega), linked, if_pos ⟨rfl, hn⟩]
    dsimp only
    rw [hfirst, hvalid i (by omega)]
    have hstart : some i = if n = 0 then none else some i := (if_neg hn.ne').symm
    rw [hstart]
    refine Linked.chain_range' fun j hij hj => ?_
    by_cases hend : j = i + n - 1
    · rw [hend, Function.update_self, Linked.link_null, if_neg (by omega)]
    · rw [Function.update_of_ne hend, linked, if_neg (by omega), if_pos (by omega),
        if_pos (by omega), hvalid _ (by omega)]

/-- The chain of a pool that has grown: the new objects are behind the old ones, and nothing else
is written. -/
structure Grown (p q : ObjectPool) (frees : List ℕ) : Prop where
  more : p.capacity < q.capacity
  free : q.Free (frees ++ List.range' p.capacity (q.capacity - p.capacity))
  count : q.freeCount = p.freeCount + (q.capacity - p.capacity)
  last : q.lastFreeObject = q.capacity - 1
  same : ∀ i < p.capacity, i ∉ frees → q.objects i = p.objects i

/-- How many objects the enlarged pool has. -/
def newCount (z : Sizes) (extra : ℕ) (p : ObjectPool) : ℕ :=
  z.objectCount (z.poolSize (p.capacity + extra)) % 2 ^ 32

theorem Kept.freeCount_le (h : p.Kept frees live) : p.freeCount ≤ p.capacity := by
  have hsub : frees ⊆ List.range p.capacity := fun i hi =>
    List.mem_range.mpr (h.inside i (List.mem_append_left _ hi))
  have hlen := (List.subperm_of_subset (List.nodup_append.mp h.nodup).1 hsub).length_le
  rw [List.length_range] at hlen
  exact h.count.le.trans hlen

/-- Where the pages are granted, the loop runs over the new objects. -/
theorem enlarge_eq {extra : ℕ} (h : p.enlarge z extra granted = some q) :
    q = p ∨ ∃ r, close (p.newCount z extra) (link
        (if p.freeCount > 0 then some p.lastFreeObject else none) p.capacity
        (p.newCount z extra - p.capacity) p) = some r ∧
      q = { r with
            capacity := p.newCount z extra
            freeCount := (r.freeCount + (p.newCount z extra + 2 ^ 32 - p.capacity)) % 2 ^ 32 } := by
  unfold ObjectPool.enlarge at h
  dsimp only at h
  split at h
  · cases granted with
    | false => exact Or.inl (Option.some.inj h).symm
    | true =>
        obtain ⟨r, hr, rfl⟩ := Option.map_eq_some_iff.mp h
        exact Or.inr ⟨r, hr, rfl⟩
  · cases h

theorem newCount_lt (z : Sizes) (extra : ℕ) (p : ObjectPool) : p.newCount z extra < 2 ^ 32 := by
  rw [newCount]
  exact Nat.mod_lt _ (Nat.two_pow_pos 32)

/-- The objects of an enlarged pool are behind the last free one, or are the only ones. -/
theorem Kept.enlarge {extra : ℕ} (h : p.Kept frees live)
    (hend : 0 < p.freeCount → frees.getLast? = some p.lastFreeObject)
    (hgrow : 0 < p.freeCount → p.capacity < p.newCount z extra)
    (heq : p.enlarge z extra granted = some q) : q = p ∨ p.Grown q frees ∧ q.capacity < 2 ^ 32 := by
  have hbound := p.newCount_lt z extra
  have hle := h.freeCount_le
  rcases enlarge_eq heq with rfl | ⟨r, hr, rfl⟩
  · exact Or.inl rfl
  · generalize p.newCount z extra = count at hgrow hbound hr ⊢
    have hlast := close_last hr
    have hmore : p.capacity < count := by
      by_cases hfree : p.freeCount = 0
      · by_contra hnot
        rw [if_neg (by omega), Nat.sub_eq_zero_of_le (by omega)] at hr
        cases hr
      · exact hgrow (Nat.pos_of_ne_zero hfree)
    have hn : 0 < count - p.capacity := by omega
    have hsum : p.capacity + (count - p.capacity) < 2 ^ 32 := by omega
    have hchain : r.Free (frees ++ List.range' p.capacity (count - p.capacity)) ∧
        r.freeCount = p.freeCount ∧ ∀ i < p.capacity, i ∉ frees → r.objects i = p.objects i := by
      by_cases hfree : p.freeCount = 0
      · rw [if_neg (by omega)] at hr
        obtain ⟨q, hq, hqfree, -, hcount, -⟩ := close_link p count hn hsum
        rw [hr] at hq
        obtain rfl := Option.some.inj hq
        have hnil : frees = [] := List.eq_nil_of_length_eq_zero (h.count.symm.trans hfree)
        rw [hnil]
        exact ⟨hqfree, hcount, fun i hi _ => close_link_objects hr hi nofun⟩
      · have hpos : 0 < p.freeCount := Nat.pos_of_ne_zero hfree
        rw [if_pos hpos] at hr
        obtain ⟨xs, rfl⟩ := List.getLast?_eq_some_iff.mp (hend hpos)
        obtain ⟨q, hq, hqfree, -, hcount, -⟩ := close_link_some h.free
          (List.nodup_append.mp h.nodup).1
          (fun j hj => h.inside j (List.mem_append_left _ hj)) hn hsum
        rw [hr] at hq
        obtain rfl := Option.some.inj hq
        refine ⟨hqfree, hcount, fun i hi hout => close_link_objects hr hi ?_⟩
        rintro hli
        refine hout (List.mem_append_right _ ?_)
        rw [Option.some.inj hli]
        exact List.mem_cons_self
    refine Or.inr ⟨⟨hmore, hchain.1.congr rfl rfl, ?_, ?_, hchain.2.2⟩, hbound⟩
    · show (r.freeCount + (count + 2 ^ 32 - p.capacity)) % 2 ^ 32 = p.freeCount + (count - p.capacity)
      rw [hchain.2.1]
      omega
    · show r.lastFreeObject = count - 1
      rw [hlast]
      omega

/-! ## What the calls keep -/

/-- The objects of a pool that has grown are still all different. -/
theorem Kept.grown (h : p.Kept frees live) (hq : p.Grown q frees) (hbound : q.capacity < 2 ^ 32) :
    q.Kept (frees ++ List.range' p.capacity (q.capacity - p.capacity)) live where
  free := hq.free
  count := by
    rw [hq.count, h.count, List.length_append, List.length_range']
  bound := hbound
  nodup := by
    rw [List.append_assoc]
    refine ((List.perm_append_comm.append_left frees).nodup_iff).mpr ?_
    rw [← List.append_assoc]
    refine List.nodup_append.mpr ⟨h.nodup, List.nodup_range', ?_⟩
    rintro i hi j hj rfl
    have hi' := h.inside i hi
    rw [List.mem_range'_1] at hj
    omega
  inside := by
    intro i hi
    have hmore := hq.more
    rw [List.append_assoc, List.mem_append, List.mem_append, List.mem_range'_1] at hi
    rcases hi with hi | hi | hi
    · exact (h.inside i (List.mem_append_left _ hi)).trans hmore
    · omega
    · exact (h.inside i (List.mem_append_right _ hi)).trans hmore

theorem Grown.getLast? (hq : p.Grown q frees) :
    (frees ++ List.range' p.capacity (q.capacity - p.capacity)).getLast? =
      some q.lastFreeObject := by
  have hmore := hq.more
  rw [List.getLast?_append, List.getLast?_range', if_neg (by omega), hq.last]
  have hlast : p.capacity + (q.capacity - p.capacity) - 1 = q.capacity - 1 := by omega
  simp [hlast]

/-- The first free object becomes busy. -/
theorem Kept.pop (h : p.Kept (i :: xs) live) :
    p.firstFreeObject = i ∧ (ObjectAllocator.pop p).Kept xs (i :: live) := by
  have hfirst : p.firstFreeObject = i := (Linked.link_eq_some.mp h.free.1).1
  have hperm : (xs ++ i :: live).Perm (i :: xs ++ live) := List.perm_middle
  refine ⟨hfirst, ?_, ?_, h.bound, hperm.nodup_iff.mpr h.nodup, fun j hj => ?_⟩
  · rw [Free, ObjectAllocator.pop]
    dsimp only
    rw [hfirst]
    exact h.free.2
  · show p.freeCount - 1 = xs.length
    rw [h.count, List.length_cons, Nat.add_sub_cancel]
  · exact h.inside j (hperm.mem_iff.mp hj)

/-- A busy object becomes the first free one. -/
theorem Kept.put (h : p.Kept frees live) (hi : i ∈ live) :
    (p.put i).Kept (i :: frees) (live.erase i) := by
  have hbound := h.bound
  have hlt := h.inside i (List.mem_append_right _ hi)
  have hout : i ∉ frees := fun hmem => (List.nodup_append.mp h.nodup).2.2 i hmem i hi rfl
  have hperm : (i :: frees ++ live.erase i).Perm (frees ++ live) :=
    List.perm_middle.symm.trans ((List.perm_cons_erase hi).symm.append_left frees)
  refine ⟨⟨?_, ?_⟩, ?_, h.bound, hperm.nodup_iff.mpr h.nodup, fun j hj => ?_⟩
  · refine Linked.link_of_ne ?_
    show i ≠ 0xFFFFFFFF
    omega
  · rw [ObjectPool.put]
    dsimp only
    rw [Function.update_self]
    refine (Linked.chain_congr fun j hj => ?_).mpr h.free
    rw [Function.update_of_ne (ne_of_mem_of_not_mem hj hout)]
  · show p.freeCount + 1 = (i :: frees).length
    rw [h.count]
    rfl
  · exact h.inside j (hperm.mem_iff.mp hj)

/-- What the program writes to a busy object is in no chain. -/
theorem Kept.write (h : p.Kept frees live) (hi : i ∈ live) (value : ℕ) :
    Kept { p with objects := Function.update p.objects i value } frees live := by
  have hout : i ∉ frees := fun hmem => (List.nodup_append.mp h.nodup).2.2 i hmem i hi rfl
  refine ⟨?_, h.count, h.bound, h.nodup, h.inside⟩
  refine (Linked.chain_congr fun j hj => ?_).mpr h.free
  dsimp only
  rw [Function.update_of_ne (ne_of_mem_of_not_mem hj hout)]

/-- The chain of a pool, and its end. -/
structure Sound (p : ObjectPool) (frees live : List ℕ) : Prop extends Kept p frees live where
  last : 0 < p.freeCount → frees.getLast? = some p.lastFreeObject

theorem acquire_sound (h : acquire z n = some p) :
    0 < p.capacity ∧ p.Sound (List.range' 0 p.capacity) [] := by
  unfold acquire fill at h
  have hbound : z.objectCount (z.poolSize n) % 2 ^ 32 < 2 ^ 32 := Nat.mod_lt _ (Nat.two_pow_pos 32)
  generalize z.objectCount (z.poolSize n) % 2 ^ 32 = count at h hbound
  have hlast := close_last h
  have hpos : 0 < count := by
    rcases Nat.eq_zero_or_pos count with rfl | hpos
    · cases h
    · exact hpos
  obtain ⟨q, hq, hfree, hcap, hcount, -⟩ :=
    close_link { blank with capacity := count, freeCount := count } count hpos
      (show 0 + count < 2 ^ 32 by omega)
  rw [h] at hq
  obtain rfl := Option.some.inj hq
  have hcap' : p.capacity = count := hcap
  have hcount' : p.freeCount = count := hcount
  rw [hcap']
  refine ⟨hpos, ⟨hfree, ?_, ?_, ?_, fun i hi => ?_⟩, fun _ => ?_⟩
  · rw [hcount', List.length_range']
  · rw [hcap']
    exact hbound
  · rw [List.append_nil]
    exact List.nodup_range'
  · rw [List.append_nil, List.mem_range'_1] at hi
    omega
  · have hend : (count + 2 ^ 32 - 1) % 2 ^ 32 = 0 + count - 1 := by omega
    rw [List.getLast?_range', if_neg hpos.ne', hlast, hend]

/-- The end stays in the chain, while there is one. -/
theorem Sound.pop (h : p.Sound (i :: xs) live) :
    (ObjectAllocator.pop p).Sound xs (i :: live) := by
  obtain ⟨-, hpop⟩ := h.toKept.pop
  refine ⟨hpop, fun hmore => ?_⟩
  cases xs with
  | nil => exact absurd hpop.count hmore.ne'
  | cons j xs =>
      have hlast := h.last (Nat.pos_of_ne_zero fun hzero => absurd h.count (by simp [hzero]))
      rw [List.getLast?_cons_cons] at hlast
      exact hlast

/-- An object is taken out of a chain that still has its end, or that is enlarged. -/
theorem Sound.take {estimatedLeft : ℕ} (h : p.Sound frees live) (hpos : p.freeCount ≠ 0)
    (hq : p.take cfg estimatedLeft granted = some q) :
    ∃ frees', q.Sound frees' (p.firstFreeObject :: live) := by
  cases frees with
  | nil => exact absurd h.count hpos
  | cons i xs =>
      obtain ⟨hfirst, hpop⟩ := h.toKept.pop
      rw [hfirst]
      rw [ObjectPool.take] at hq
      split at hq
      -- It was the last one.
      · next hzero =>
        have hnil : xs = [] := List.eq_nil_of_length_eq_zero (hpop.count.symm.trans hzero)
        subst hnil
        have hfull : Kept { ObjectAllocator.pop p with lastFreeObject := objIndInvalid } []
            (i :: live) :=
          ⟨hpop.free, hpop.count, hpop.bound, hpop.nodup, hpop.inside⟩
        have hnone : ¬ 0 < (ObjectAllocator.pop p).freeCount := by
          rw [hzero]
          exact Nat.lt_irrefl 0
        rw [ObjectAllocator.refill] at hq
        split at hq
        · rcases hfull.enlarge (fun hp => absurd hp hnone) (fun hp => absurd hp hnone) hq with
            rfl | ⟨hgrown, hbound⟩
          · exact ⟨[], hfull, fun hp => absurd hp hnone⟩
          · exact ⟨_, hfull.grown hgrown hbound, fun _ => hgrown.getLast?⟩
        · obtain rfl := Option.some.inj hq
          exact ⟨[], hfull, fun hp => absurd hp hnone⟩
      · next hmore =>
        obtain rfl := Option.some.inj hq
        exact ⟨xs, h.pop⟩

/-- A returned object keeps the end in the chain, or becomes it. -/
theorem Sound.put (h : p.Sound frees live) (hi : i ∈ live) (hkeeps : p.KeepsEnd i) :
    (p.put i).Sound (i :: frees) (live.erase i) := by
  refine ⟨h.toKept.put hi, fun _ => ?_⟩
  cases frees with
  | nil =>
      rcases hkeeps with hpos | hlast
      · exact absurd h.count hpos
      · exact congrArg some hlast.symm
  | cons j xs =>
      rw [List.getLast?_cons_cons]
      refine h.last ?_
      rw [h.count]
      exact Nat.succ_pos xs.length

theorem Sound.ended (h : p.Sound frees live) : p.Ended :=
  fun hpos => ⟨frees, h.free, h.last hpos⟩

/-- Without the condition the end is lost. -/
theorem Sound.put_ended_iff (h : p.Sound frees live) (hi : i ∈ live) :
    (p.put i).Ended ↔ p.KeepsEnd i := by
  constructor
  · intro hended
    obtain ⟨xs, hxs, hlast⟩ := hended (Nat.succ_pos p.freeCount)
    obtain rfl := hxs.unique (h.toKept.put hi).free
    cases frees with
    | nil => exact Or.inr (Option.some.inj hlast).symm
    | cons j xs =>
        refine Or.inl ?_
        rw [h.count]
        exact Nat.succ_ne_zero xs.length
  · intro hkeeps
    exact (h.put hi hkeeps).ended

theorem Run.frees_sound (h : Run cfg KeepsEnd p live) : ∃ frees, p.Sound frees live := by
  induction h with
  | acquired hp => exact ⟨_, (acquire_sound hp).2⟩
  | @appended n p hp =>
      obtain ⟨hpos, hs⟩ := acquire_sound hp
      obtain ⟨c, hcap⟩ := Nat.exists_eq_succ_of_ne_zero hpos.ne'
      rw [hcap, List.range'_succ] at hs
      rw [hs.toKept.pop.1]
      exact ⟨_, hs.pop⟩
  | allocate _ hpos hq ih =>
      obtain ⟨frees, h⟩ := ih
      exact h.take hpos hq
  | deallocate _ hi hkeeps ih =>
      obtain ⟨frees, h⟩ := ih
      exact ⟨_, h.put hi hkeeps⟩
  | relink _ ih =>
      obtain ⟨frees, h⟩ := ih
      exact ⟨frees, ⟨h.free, h.count, h.bound, h.nodup, h.inside⟩, h.last⟩
  | write _ hi ih =>
      obtain ⟨frees, h⟩ := ih
      exact ⟨frees, h.toKept.write hi _, h.last⟩

/-- `LastFreeObject` ends the chain in every run that returns no object to a pool without free
ones, and enlarging the pool then appends to the chain and writes to no other object. -/
theorem lastFree_sound (h : Run cfg KeepsEnd p live) :
    p.Ended ∧ (∀ i ∈ live, (p.put i).Ended ↔ p.KeepsEnd i) ∧
      ∀ frees extra granted q, p.Free frees → 0 < p.freeCount →
        p.capacity < p.newCount cfg.sizes extra → p.enlarge cfg.sizes extra granted = some q →
        q = p ∨ p.Grown q frees := by
  obtain ⟨frees, hs⟩ := h.frees_sound
  refine ⟨hs.ended, fun i hi => hs.put_ended_iff hi, ?_⟩
  intro xs extra granted q hxs _ hgrow hq
  obtain rfl := hxs.unique hs.free
  exact (hs.enlarge hs.last (fun _ => hgrow) hq).imp_right And.left

/-! ## A pool of three objects -/

theorem quarters_acquired : ∃ p, acquire ObjectAllocator.quarters.sizes 1 = some p ∧
    p.capacity = 3 ∧ p.freeCount = 3 ∧ p.firstFreeObject = 0 := by
  obtain ⟨hsuitable, hthree⟩ := ObjectAllocator.quarters_suitable
  obtain ⟨p, hp, -, -, -, hfree, hcapacity, hlist⟩ :=
    acquire_spec hsuitable.representable hsuitable.pos hsuitable.bound
  rw [hthree] at hcapacity
  rw [hcapacity] at hfree hlist
  exact ⟨p, hp, hcapacity, hfree, (Linked.link_eq_some.mp hlist.1).1⟩

theorem lastFree_sound_returned : ∃ p : ObjectPool, p.freeCount = 3 ∧ p.Ended ∧
    ∀ frees extra granted q, p.Free frees → 0 < p.freeCount →
      p.capacity < p.newCount ObjectAllocator.quarters.sizes extra →
      p.enlarge ObjectAllocator.quarters.sizes extra granted = some q →
      q = p ∨ p.Grown q frees := by
  obtain ⟨p, hp, -, hfree, -⟩ := quarters_acquired
  have hpop : (ObjectAllocator.pop p).freeCount = 2 := congrArg (· - 1) hfree
  have htake : p.take ObjectAllocator.quarters 1 false = some (ObjectAllocator.pop p) := by
    rw [take]
    exact if_neg (by rw [hpop]; decide)
  have hrun : Run ObjectAllocator.quarters KeepsEnd (ObjectAllocator.pop p) [p.firstFreeObject] :=
    .allocate (.acquired hp) (by rw [hfree]; decide) htake
  have hreturned := hrun.deallocate List.mem_cons_self (Or.inl (by rw [hpop]; decide))
  obtain ⟨hended, -, hgrow⟩ := lastFree_sound hreturned
  exact ⟨_, congrArg (· + 1) hpop, hended, hgrow⟩

/-- The pool has been emptied, and the heap has not granted more pages. -/
theorem quarters_emptied : ∃ p live, (∀ kind, Run ObjectAllocator.quarters kind p live) ∧
    0 ∈ live ∧ p.freeCount = 0 ∧ p.lastFreeObject = objIndInvalid := by
  obtain ⟨p, hp, hcapacity, hfree, hfirst⟩ := quarters_acquired
  have hone : (ObjectAllocator.pop p).freeCount = 2 := congrArg (· - 1) hfree
  have htwo : (ObjectAllocator.pop (ObjectAllocator.pop p)).freeCount = 1 := congrArg (· - 1) hone
  have hthree : (ObjectAllocator.pop (ObjectAllocator.pop (ObjectAllocator.pop p))).freeCount = 0 :=
    congrArg (· - 1) htwo
  have hsize : ObjectAllocator.quarters.sizes.poolSize 4 >
      ObjectAllocator.quarters.sizes.poolSize 3 := by
    decide +kernel
  have hrefused : (ObjectAllocator.pop (ObjectAllocator.pop p)).take ObjectAllocator.quarters 1
      false = some { ObjectAllocator.pop (ObjectAllocator.pop (ObjectAllocator.pop p)) with
        lastFreeObject := objIndInvalid } := by
    rw [take]
    refine (if_pos hthree).trans ?_
    unfold ObjectAllocator.refill ObjectPool.enlarge
    rw [if_pos (show ObjectAllocator.quarters.enlarges = true from rfl)]
    show (if ObjectAllocator.quarters.sizes.poolSize (p.capacity + 1) >
      ObjectAllocator.quarters.sizes.poolSize p.capacity then _ else _) = _
    rw [hcapacity, if_pos hsize]
    rfl
  have htake : ∀ q : ObjectPool, (ObjectAllocator.pop q).freeCount ≠ 0 →
      q.take ObjectAllocator.quarters 1 false = some (ObjectAllocator.pop q) := by
    intro q hq
    rw [take]
    exact if_neg hq
  refine ⟨{ ObjectAllocator.pop (ObjectAllocator.pop (ObjectAllocator.pop p)) with
    lastFreeObject := objIndInvalid },
    [(ObjectAllocator.pop (ObjectAllocator.pop p)).firstFreeObject,
      (ObjectAllocator.pop p).firstFreeObject, p.firstFreeObject],
    fun kind => ?_, ?_, hthree, rfl⟩
  · refine .allocate (.allocate (.allocate (.acquired hp) ?_ (htake p ?_)) ?_ (htake _ ?_)) ?_
      hrefused
    · rw [hfree]; decide
    · rw [hone]; decide
    · rw [hone]; decide
    · rw [htwo]; decide
    · rw [htwo]; decide
  · rw [hfirst]
    simp

/-- An object that is returned to the emptied pool is the last free one, and `LastFreeObject` does
not say so. -/
theorem lastFree_stale : ¬ ∀ p live, Run ObjectAllocator.quarters (fun _ _ => True) p live →
    p.Ended := by
  intro hall
  obtain ⟨p, live, hrun, hmem, hfree, hlast⟩ := quarters_emptied
  obtain ⟨frees, hs⟩ := Run.frees_sound (hrun KeepsEnd)
  have hended := hall _ _ ((hrun _).deallocate hmem trivial)
  rcases (hs.put_ended_iff hmem).mp hended with hpos | hzero
  · exact hpos hfree
  · rw [hlast] at hzero
    cases hzero

end ObjectPool

end Beelzebub.Objects
