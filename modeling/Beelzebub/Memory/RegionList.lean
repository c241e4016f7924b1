import Beelzebub.Lib.Tiling
import Beelzebub.Memory.Vas
import Mathlib.Data.List.Chain
import Mathlib.Tactic.Tauto

/-!
# Region lists

The abstract state of an address space is the list of its regions, without
descriptors, links or tree.  `RegionStep` says everything one pass of `execute`
can do to that list when it accepts the region around the requested address: the
nine ways of splitting, repurposing and merging.  What the pass means is read off
the list: its invariant (`RegionInv`) and the page map (`pageMap`).
-/

namespace Beelzebub.Memory

open Tiling
open MemoryAllocationOptions (permanent guardLow guardHigh guardFull)

/-! ## Attributes -/

/-- What the page map says about an address. -/
structure PageAttributes where
  flags : MemoryFlags
  content : MemoryContent
  type : MemoryAllocationOptions
deriving DecidableEq, Repr

/-- The attributes of a region, without the guard bits. -/
def Region.attributes (r : Region) : PageAttributes := ⟨r.flags, r.content, withoutGuards r.type⟩

@[simp] theorem Region.attributes_setStart (r : Region) (v : Nat) :
    (r.setStart v).attributes = r.attributes := rfl

@[simp] theorem Region.attributes_setStop (r : Region) (v : Nat) :
    (r.setStop v).attributes = r.attributes := rfl

@[simp] theorem Region.attributes_clear_low (r : Region) :
    (r.clear guardLow).attributes = r.attributes := by
  simp [Region.attributes, withoutGuards_clear_low]

@[simp] theorem Region.attributes_clear_high (r : Region) :
    (r.clear guardHigh).attributes = r.attributes := by
  simp [Region.attributes, withoutGuards_clear_high]

namespace Operation

/-- The attributes the operation gives. -/
def attributes : Operation → PageAttributes
  | allocate flags content type => ⟨flags, content, withoutGuards type⟩
  | free => ⟨MemoryFlags.none, .free, MemoryAllocationOptions.none⟩

@[simp] theorem attributes_repurpose (op : Operation) (r : Region) :
    (op.repurpose r).attributes = op.attributes := by
  cases op <;> simp [attributes, repurpose, Region.attributes]

@[simp] theorem attributes_spawned (op : Operation) (s t : Nat) :
    (op.spawned s t).attributes = op.attributes := by
  cases op <;> simp [attributes, spawned, Region.blank, Region.attributes]

@[simp] theorem start_repurpose (op : Operation) (r : Region) :
    (op.repurpose r).start = r.start := by
  cases op <;> rfl

@[simp] theorem stop_repurpose (op : Operation) (r : Region) : (op.repurpose r).stop = r.stop := by
  cases op <;> rfl

@[simp] theorem start_spawned (op : Operation) (s t : Nat) : (op.spawned s t).start = s := by
  cases op <;> rfl

@[simp] theorem stop_spawned (op : Operation) (s t : Nat) : (op.spawned s t).stop = t := by
  cases op <;> rfl

/-- The type a new region gets. -/
def newType : Operation → MemoryAllocationOptions
  | allocate _ _ type => type
  | free => MemoryAllocationOptions.none

@[simp] theorem type_spawned (op : Operation) (s t : Nat) : (op.spawned s t).type = op.newType := by
  cases op <;> rfl

@[simp] theorem type_repurpose (op : Operation) (r : Region) :
    (op.repurpose r).type = op.newType := by
  cases op <;> rfl

/-- The content a new region gets. -/
def newContent : Operation → MemoryContent
  | allocate _ content _ => content
  | free => .free

@[simp] theorem content_spawned (op : Operation) (s t : Nat) :
    (op.spawned s t).content = op.newContent := by
  cases op <;> rfl

@[simp] theorem content_repurpose (op : Operation) (r : Region) :
    (op.repurpose r).content = op.newContent := by
  cases op <;> rfl

/-! ## What `Check` decides -/

/-- The operation works on regions like this one. -/
def Accepts : Operation → Region → Prop
  | allocate .., r => r.content = .free
  | free, r => r.content ≠ .free

/-- The request begins with the region.  A release that leaves only the low guard
page takes it too. -/
def MeetsLeft : Operation → Nat → Region → Prop
  | allocate .., v, r => r.start = v
  | free, v, r => r.start = v ∨ (has r.type guardLow = true ∧ r.start + pageSize = v)

/-- The request ends with the region, or beyond it. -/
def MeetsRight : Operation → Nat → Region → Prop
  | allocate .., e, r => r.stop = e
  | free, e, r => r.stop ≤ e ∨ (has r.type guardHigh = true ∧ r.stop = e + pageSize)

/-- The region left of the request can be extended over it. -/
def LeftMergeable : Operation → Region → Prop
  | allocate flags content type, a =>
      has a.type guardHigh = false ∧ has type guardLow = false ∧ a.flags = flags ∧
        memoryContentsMergeable a.content content = true ∧
        withoutGuards a.type = withoutGuards type
  | free, a => a.content = .free

/-- The region right of the request can be extended over it. -/
def RightMergeable : Operation → Region → Prop
  | allocate flags content type, b =>
      has b.type guardLow = false ∧ has type guardHigh = false ∧ b.flags = flags ∧
        memoryContentsMergeable b.content content = true ∧
        withoutGuards b.type = withoutGuards type
  | free, b => b.content = .free

instance (op : Operation) (r : Region) : Decidable (op.Accepts r) :=
  match op with
  | allocate .. => inferInstanceAs (Decidable (r.content = .free))
  | free => inferInstanceAs (Decidable (r.content ≠ .free))

instance (op : Operation) (v : Nat) (r : Region) : Decidable (op.MeetsLeft v r) :=
  match op with
  | allocate .. => inferInstanceAs (Decidable (r.start = v))
  | free => inferInstanceAs (Decidable (_ ∨ (_ ∧ _)))

instance (op : Operation) (e : Nat) (r : Region) : Decidable (op.MeetsRight e r) :=
  match op with
  | allocate .. => inferInstanceAs (Decidable (r.stop = e))
  | free => inferInstanceAs (Decidable (_ ∨ (_ ∧ _)))

instance (op : Operation) (a : Region) : Decidable (op.LeftMergeable a) :=
  match op with
  | allocate .. => inferInstanceAs (Decidable (_ ∧ _ ∧ _ ∧ _ ∧ _))
  | free => inferInstanceAs (Decidable (a.content = .free))

instance (op : Operation) (b : Region) : Decidable (op.RightMergeable b) :=
  match op with
  | allocate .. => inferInstanceAs (Decidable (_ ∧ _ ∧ _ ∧ _ ∧ _))
  | free => inferInstanceAs (Decidable (b.content = .free))

end Operation

/-! ## One pass -/

/-- What is left of a region above a request in its middle. -/
def Region.above (r : Region) (e : Nat) : Region :=
  { r with
    range := ⟨e, r.stop⟩
    type := ((r.type &&& ~~~guardHigh) &&& ~~~guardLow) ||| (r.type &&& guardHigh) }

@[simp] theorem Region.start_above (r : Region) (e : Nat) : (r.above e).start = e := rfl

@[simp] theorem Region.stop_above (r : Region) (e : Nat) : (r.above e).stop = r.stop := rfl

@[simp] theorem Region.content_above (r : Region) (e : Nat) : (r.above e).content = r.content := rfl

@[simp] theorem Region.flags_above (r : Region) (e : Nat) : (r.above e).flags = r.flags := rfl

theorem Region.type_above (r : Region) (e : Nat) :
    (r.above e).type = ((r.type &&& ~~~guardHigh) &&& ~~~guardLow) ||| (r.type &&& guardHigh) := rfl

@[simp] theorem Region.attributes_above (r : Region) (e : Nat) :
    (r.above e).attributes = r.attributes := by
  have h : withoutGuards (r.above e).type = withoutGuards r.type := by
    have h1 : guardHigh &&& ~~~guardFull = 0 := by decide
    have h2 : ~~~guardHigh &&& (~~~guardLow &&& ~~~guardFull) = ~~~guardFull := by decide
    rw [Region.type_above, withoutGuards, BitVec.and_or_distrib_right,
      BitVec.and_assoc r.type guardHigh, h1, BitVec.and_assoc, BitVec.and_assoc, h2]
    simp [withoutGuards]
  simp only [Region.attributes, h, Region.flags_above, Region.content_above]

/-- The region the pass works on: it lies around `v`, is accepted and may be
touched.  Only a release may reach beyond it. -/
structure Operation.Hits (op : Operation) (v e : Nat) (r : Region) : Prop where
  lower : r.start ≤ v
  upper : v < r.stop
  accepts : op.Accepts r
  movable : has r.type permanent = false
  within : op.isAllocation = true → e ≤ r.stop

/-- One pass over the region `r`, for the request `[v, e)`. -/
inductive RegionStep (op : Operation) (v e : Nat) (r : Region) : List Region → List Region → Prop
  | mergeBoth {A B : List Region} {a b : Region} :
      op.Hits v e r → op.MeetsLeft v r → op.MeetsRight e r →
      op.LeftMergeable a → op.RightMergeable b →
      RegionStep op v e r (A ++ a :: r :: b :: B) (A ++ a.setStop b.stop :: B)
  | mergeLeft {A B : List Region} {a : Region} :
      op.Hits v e r → op.MeetsLeft v r → op.MeetsRight e r →
      op.LeftMergeable a → (∀ b ∈ B.head?, ¬op.RightMergeable b) →
      RegionStep op v e r (A ++ a :: r :: B) (A ++ a.setStop r.stop :: B)
  | mergeRight {A B : List Region} {b : Region} :
      op.Hits v e r → op.MeetsLeft v r → op.MeetsRight e r →
      (∀ a ∈ A.getLast?, ¬op.LeftMergeable a) → op.RightMergeable b →
      RegionStep op v e r (A ++ r :: b :: B) (A ++ b.setStart r.start :: B)
  | repurpose {A B : List Region} :
      op.Hits v e r → op.MeetsLeft v r → op.MeetsRight e r →
      (∀ a ∈ A.getLast?, ¬op.LeftMergeable a) → (∀ b ∈ B.head?, ¬op.RightMergeable b) →
      RegionStep op v e r (A ++ r :: B) (A ++ op.repurpose r :: B)
  | startMerge {A B : List Region} {a : Region} :
      op.Hits v e r → op.MeetsLeft v r → ¬op.MeetsRight e r → op.LeftMergeable a →
      RegionStep op v e r (A ++ a :: r :: B)
        (A ++ a.setStop e :: (r.setStart e).clear guardLow :: B)
  | startSpawn {A B : List Region} :
      op.Hits v e r → op.MeetsLeft v r → ¬op.MeetsRight e r →
      (∀ a ∈ A.getLast?, ¬op.LeftMergeable a) →
      RegionStep op v e r (A ++ r :: B)
        (A ++ op.spawned r.start e :: (r.setStart e).clear guardLow :: B)
  | endMerge {A B : List Region} {b : Region} :
      op.Hits v e r → ¬op.MeetsLeft v r → op.MeetsRight e r → op.RightMergeable b →
      RegionStep op v e r (A ++ r :: b :: B)
        (A ++ (r.setStop v).clear guardHigh :: b.setStart v :: B)
  | endSpawn {A B : List Region} :
      op.Hits v e r → ¬op.MeetsLeft v r → op.MeetsRight e r →
      (∀ b ∈ B.head?, ¬op.RightMergeable b) →
      RegionStep op v e r (A ++ r :: B)
        (A ++ (r.setStop v).clear guardHigh :: op.spawned v r.stop :: B)
  | middle {A B : List Region} :
      op.Hits v e r → ¬op.MeetsLeft v r → ¬op.MeetsRight e r →
      RegionStep op v e r (A ++ r :: B)
        (A ++ (r.setStop v).clear guardHigh :: op.spawned v e :: r.above e :: B)

/-! ## The invariant -/

/-- Two neighbours are not both free. -/
def NotBothFree (a b : Region) : Prop := ¬(a.content = .free ∧ b.content = .free)

/-- If the region is free, it carries no flags and no options. -/
def Region.Blank (r : Region) : Prop :=
  r.content = .free → r.flags = MemoryFlags.none ∧ r.type = MemoryAllocationOptions.none

/-- The invariant of a region list over `[lo, hi)`. -/
structure RegionInv (lo hi : Nat) (L : List Region) : Prop where
  /-- The regions are not empty and follow each other without gap. -/
  tiles : Tiles Region.start Region.stop lo L hi
  /-- Free regions are merged. -/
  merged : L.IsChain NotBothFree
  /-- Free regions carry no flags and no options. -/
  blank : ∀ r ∈ L, r.Blank

namespace Operation

/-- A request that stops before the end of the region leaves something of it. -/
theorem Hits.lt_stop {op : Operation} {v e : Nat} {r : Region} (h : op.Hits v e r)
    (hr : ¬op.MeetsRight e r) : e < r.stop := by
  cases op with
  | allocate f c t =>
      have := h.within rfl
      unfold MeetsRight at hr
      omega
  | free =>
      unfold MeetsRight at hr
      omega

/-- A request that starts after the beginning of the region leaves something of
it. -/
theorem Hits.start_lt {op : Operation} {v e : Nat} {r : Region} (h : op.Hits v e r)
    (hl : ¬op.MeetsLeft v r) : r.start < v := by
  have := h.lower
  cases op with
  | allocate f c t =>
      unfold MeetsLeft at hl
      omega
  | free =>
      unfold MeetsLeft at hl
      omega

/-- A region that can be merged carries the attributes the operation gives. -/
theorem attributes_of_leftMergeable {op : Operation} {a : Region} (h : op.LeftMergeable a)
    (hb : a.Blank) :
    a.attributes = op.attributes := by
  cases op with
  | allocate f c t =>
      obtain ⟨-, -, hf, hc, ht⟩ := h
      simp only [Region.attributes, attributes, hf, eq_of_memoryContentsMergeable hc, ht]
  | free =>
      obtain ⟨hf, ht⟩ := hb h
      simp only [Region.attributes, attributes, hf, ht, show a.content = .free from h,
        withoutGuards_none]

theorem attributes_of_rightMergeable {op : Operation} {b : Region} (h : op.RightMergeable b)
    (hb : b.Blank) :
    b.attributes = op.attributes := by
  cases op with
  | allocate f c t =>
      obtain ⟨-, -, hf, hc, ht⟩ := h
      simp only [Region.attributes, attributes, hf, eq_of_memoryContentsMergeable hc, ht]
  | free =>
      obtain ⟨hf, ht⟩ := hb h
      simp only [Region.attributes, attributes, hf, ht, show b.content = .free from h,
        withoutGuards_none]

theorem content_of_leftMergeable {op : Operation} {a : Region} (h : op.LeftMergeable a) :
    a.content = op.newContent := by
  cases op with
  | allocate f c t => exact eq_of_memoryContentsMergeable h.2.2.2.1
  | free => exact h

theorem content_of_rightMergeable {op : Operation} {b : Region} (h : op.RightMergeable b) :
    b.content = op.newContent := by
  cases op with
  | allocate f c t => exact eq_of_memoryContentsMergeable h.2.2.2.1
  | free => exact h

/-- The operation changes whether the region is free. -/
theorem Accepts.free_iff {op : Operation} {r : Region} (h : op.Accepts r)
    (hc : op.isAllocation = true → op.newContent ≠ .free) :
    r.content = .free ↔ op.newContent ≠ .free := by
  cases op with
  | allocate f c t => exact ⟨fun _ => hc rfl, fun _ => h⟩
  | free => exact ⟨fun hr => absurd hr h, fun hr => absurd rfl hr⟩

end Operation

/-! ## A pass keeps the invariant -/

section Preserve

variable {op : Operation} {v e lo hi : Nat} {r : Region} {L L' : List Region}

theorem RegionStep.hits (h : RegionStep op v e r L L') : op.Hits v e r := by
  cases h <;> assumption

theorem RegionStep.mem (h : RegionStep op v e r L L') : r ∈ L := by
  cases h <;> simp

/-- The stretch that was tiled before is tiled after. -/
theorem RegionStep.tiles (h : RegionStep op v e r L L') (hve : v < e)
    (hL : Tiles Region.start Region.stop lo L hi) :
    Tiles Region.start Region.stop lo L' hi := by
  have hh := h.hits
  have hlow := hh.lower
  have hupp := hh.upper
  cases h with
  | mergeBoth _ hl hr ha hb =>
      obtain ⟨m, hA, h1, h2, h3, h4, h5, h6, h7⟩ := tiles_append.mp hL
      refine tiles_append.mpr ⟨m, hA, h1, ?_, h7⟩
      simp only [Region.start_setStop, Region.stop_setStop]
      omega
  | mergeLeft _ hl hr ha hb =>
      obtain ⟨m, hA, h1, h2, h3, h4, h5⟩ := tiles_append.mp hL
      refine tiles_append.mpr ⟨m, hA, h1, ?_, h5⟩
      simp only [Region.start_setStop, Region.stop_setStop]
      omega
  | mergeRight _ hl hr ha hb =>
      obtain ⟨m, hA, h1, h2, h3, h4, h5⟩ := tiles_append.mp hL
      refine tiles_append.mpr ⟨m, hA, h1, ?_, h5⟩
      simp only [Region.start_setStart, Region.stop_setStart]
      omega
  | repurpose _ hl hr ha hb =>
      obtain ⟨m, hA, h1, h2, h3⟩ := tiles_append.mp hL
      refine tiles_append.mpr ⟨m, hA, ?_⟩
      simpa using ⟨h1, h2, h3⟩
  | startMerge _ hl hr ha =>
      have := hh.lt_stop hr
      obtain ⟨m, hA, h1, h2, h3, h4, h5⟩ := tiles_append.mp hL
      refine tiles_append.mpr ⟨m, hA, ?_⟩
      simp only [tiles_cons, Region.start_setStop, Region.stop_setStop, Region.start_clear,
        Region.stop_clear, Region.start_setStart, Region.stop_setStart]
      exact ⟨h1, by omega, trivial, by omega, h5⟩
  | startSpawn _ hl hr ha =>
      have := hh.lt_stop hr
      obtain ⟨m, hA, h1, h2, h3⟩ := tiles_append.mp hL
      refine tiles_append.mpr ⟨m, hA, ?_⟩
      simp only [tiles_cons, Operation.start_spawned, Operation.stop_spawned, Region.start_clear,
        Region.stop_clear, Region.start_setStart, Region.stop_setStart]
      exact ⟨h1, by omega, trivial, by omega, h3⟩
  | endMerge _ hl hr hb =>
      have := hh.start_lt hl
      obtain ⟨m, hA, h1, h2, h3, h4, h5⟩ := tiles_append.mp hL
      refine tiles_append.mpr ⟨m, hA, ?_⟩
      simp only [tiles_cons, Region.start_setStop, Region.stop_setStop, Region.start_clear,
        Region.stop_clear, Region.start_setStart, Region.stop_setStart]
      exact ⟨h1, by omega, trivial, by omega, h5⟩
  | endSpawn _ hl hr hb =>
      have := hh.start_lt hl
      obtain ⟨m, hA, h1, h2, h3⟩ := tiles_append.mp hL
      refine tiles_append.mpr ⟨m, hA, ?_⟩
      simp only [tiles_cons, Operation.start_spawned, Operation.stop_spawned, Region.start_clear,
        Region.stop_clear, Region.start_setStop, Region.stop_setStop]
      exact ⟨h1, by omega, trivial, hupp, h3⟩
  | middle _ hl hr =>
      have := hh.start_lt hl
      have := hh.lt_stop hr
      obtain ⟨m, hA, h1, h2, h3⟩ := tiles_append.mp hL
      refine tiles_append.mpr ⟨m, hA, ?_⟩
      simp only [tiles_cons, Operation.start_spawned, Operation.stop_spawned, Region.start_clear,
        Region.stop_clear, Region.start_setStop, Region.stop_setStop, Region.start_above,
        Region.stop_above]
      exact ⟨h1, by omega, trivial, hve, trivial, by omega, h3⟩

theorem notBothFree_congr {a a' b b' : Region} (ha : a'.content = a.content)
    (hb : b'.content = b.content) : NotBothFree a' b' ↔ NotBothFree a b := by
  rw [NotBothFree, NotBothFree, ha, hb]

/-- A region just touched by the operation and the one it leaves differ in being
free. -/
theorem notBothFree_of_accepts {a b : Region} (hr : op.Accepts r)
    (hc : op.isAllocation = true → op.newContent ≠ .free)
    (ha : a.content = op.newContent) (hb : b.content = r.content) :
    NotBothFree a b ∧ NotBothFree b a := by
  have := hr.free_iff hc
  rw [NotBothFree, NotBothFree, ha, hb]
  tauto

/-- A region next to the result of the operation that could not be merged with it
is not free if the result is. -/
theorem notBothFree_of_not_leftMergeable {a b : Region}
    (hc : op.isAllocation = true → op.newContent ≠ .free) (ha : ¬op.LeftMergeable a)
    (hb : b.content = op.newContent) : NotBothFree a b := by
  rintro ⟨h1, h2⟩
  cases op with
  | allocate f c t => exact hc rfl (hb ▸ h2)
  | free => exact ha h1

theorem notBothFree_of_not_rightMergeable {a b : Region}
    (hc : op.isAllocation = true → op.newContent ≠ .free) (hb : ¬op.RightMergeable b)
    (ha : a.content = op.newContent) : NotBothFree a b := by
  rintro ⟨h1, h2⟩
  cases op with
  | allocate f c t => exact hc rfl (ha ▸ h1)
  | free => exact hb h2

/-- No two free regions become neighbours. -/
theorem RegionStep.merged (h : RegionStep op v e r L L')
    (hc : op.isAllocation = true → op.newContent ≠ .free) (hL : L.IsChain NotBothFree) :
    L'.IsChain NotBothFree := by
  have hacc := h.hits.accepts
  cases h with
  | mergeBoth _ hl hr ha hb =>
      simp only [List.isChain_append, List.isChain_cons, List.head?_cons] at hL ⊢
      obtain ⟨h1, ⟨-, -, h4, h5⟩, h6⟩ := hL
      refine ⟨h1, ⟨fun y hy => ?_, h5⟩, fun x hx y hy => ?_⟩
      · refine (notBothFree_congr ?_ rfl).mp (h4 y hy)
        rw [Region.content_setStop, Operation.content_of_leftMergeable ha,
          Operation.content_of_rightMergeable hb]
      · cases hy
        have hxy := h6 x hx _ rfl
        exact hxy
  | mergeLeft _ hl hr ha hb =>
      simp only [List.isChain_append, List.isChain_cons, List.head?_cons] at hL ⊢
      obtain ⟨h1, ⟨-, h3, h4⟩, h5⟩ := hL
      refine ⟨h1, ⟨fun y hy => ?_, h4⟩, fun x hx y hy => ?_⟩
      · exact notBothFree_of_not_rightMergeable hc (hb y hy)
          (by simpa using Operation.content_of_leftMergeable ha)
      · cases hy
        have hxy := h5 x hx _ rfl
        exact hxy
  | mergeRight _ hl hr ha hb =>
      simp only [List.isChain_append, List.isChain_cons, List.head?_cons] at hL ⊢
      obtain ⟨h1, ⟨-, h3, h4⟩, -⟩ := hL
      refine ⟨h1, ⟨h3, h4⟩, fun x hx y hy => ?_⟩
      cases hy
      exact notBothFree_of_not_leftMergeable hc (ha x hx)
        (by simpa using Operation.content_of_rightMergeable hb)
  | repurpose _ hl hr ha hb =>
      simp only [List.isChain_append, List.isChain_cons, List.head?_cons] at hL ⊢
      obtain ⟨h1, ⟨-, h3⟩, -⟩ := hL
      refine ⟨h1, ⟨fun y hy => ?_, h3⟩, fun x hx y hy => ?_⟩
      · exact notBothFree_of_not_rightMergeable hc (hb y hy) (by simp)
      · cases hy
        exact notBothFree_of_not_leftMergeable hc (ha x hx) (by simp)
  | startMerge _ hl hr ha =>
      simp only [List.isChain_append, List.isChain_cons, List.head?_cons] at hL ⊢
      obtain ⟨h1, ⟨h2, h3, h4⟩, h5⟩ := hL
      refine ⟨h1, ⟨fun y hy => ?_, h3, h4⟩, fun x hx y hy => ?_⟩
      · cases hy
        have hxy := h2 _ rfl
        exact hxy
      · cases hy
        have hxy := h5 x hx _ rfl
        exact hxy
  | startSpawn _ hl hr ha =>
      simp only [List.isChain_append, List.isChain_cons, List.head?_cons] at hL ⊢
      obtain ⟨h1, ⟨h2, h3⟩, -⟩ := hL
      refine ⟨h1, ⟨fun y hy => ?_, h2, h3⟩, fun x hx y hy => ?_⟩
      · cases hy
        exact (notBothFree_of_accepts hacc hc (by simp) (by simp)).1
      · cases hy
        exact notBothFree_of_not_leftMergeable hc (ha x hx) (by simp)
  | endMerge _ hl hr hb =>
      simp only [List.isChain_append, List.isChain_cons, List.head?_cons] at hL ⊢
      obtain ⟨h1, ⟨h2, h3, h4⟩, h5⟩ := hL
      refine ⟨h1, ⟨fun y hy => ?_, h3, h4⟩, fun x hx y hy => ?_⟩
      · cases hy
        have hxy := h2 _ rfl
        exact hxy
      · cases hy
        have hxy := h5 x hx _ rfl
        exact hxy
  | endSpawn _ hl hr hb =>
      simp only [List.isChain_append, List.isChain_cons, List.head?_cons] at hL ⊢
      obtain ⟨h1, ⟨-, h3⟩, h4⟩ := hL
      refine ⟨h1, ⟨fun y hy => ?_, fun y hy => ?_, h3⟩, fun x hx y hy => ?_⟩
      · cases hy
        exact (notBothFree_of_accepts hacc hc (by simp) (by simp)).2
      · exact notBothFree_of_not_rightMergeable hc (hb y hy) (by simp)
      · cases hy
        have hxy := h4 x hx _ rfl
        exact hxy
  | middle _ hl hr =>
      simp only [List.isChain_append, List.isChain_cons, List.head?_cons] at hL ⊢
      obtain ⟨h1, ⟨h2, h3⟩, h4⟩ := hL
      refine ⟨h1, ⟨fun y hy => ?_, fun y hy => ?_, h2, h3⟩, fun x hx y hy => ?_⟩
      · cases hy
        exact (notBothFree_of_accepts hacc hc (by simp) (by simp)).2
      · cases hy
        exact (notBothFree_of_accepts hacc hc (by simp) (by simp)).1
      · cases hy
        have hxy := h4 x hx _ rfl
        exact hxy

theorem Region.Blank.clear {a : Region} (h : a.Blank) (o : MemoryAllocationOptions) :
    (a.clear o).Blank := by
  intro hf
  obtain ⟨h1, h2⟩ := h hf
  refine ⟨h1, ?_⟩
  rw [Region.type_clear, h2]
  exact BitVec.zero_and

theorem Region.Blank.above {a : Region} (h : a.Blank) (e : Nat) : (a.above e).Blank := by
  intro hf
  obtain ⟨h1, h2⟩ := h hf
  refine ⟨h1, ?_⟩
  rw [Region.type_above, h2]
  decide

theorem Operation.blank_spawned (hc : op.isAllocation = true → op.newContent ≠ .free)
    (s t : Nat) : (op.spawned s t).Blank := by
  intro hf
  cases op with
  | allocate f c t => exact absurd hf (hc rfl)
  | free => exact ⟨rfl, rfl⟩

theorem Operation.blank_repurpose (hc : op.isAllocation = true → op.newContent ≠ .free)
    (r : Region) : (op.repurpose r).Blank := by
  intro hf
  cases op with
  | allocate f c t => exact absurd hf (hc rfl)
  | free => exact ⟨rfl, rfl⟩

theorem RegionStep.blank (h : RegionStep op v e r L L')
    (hc : op.isAllocation = true → op.newContent ≠ .free) (hL : ∀ x ∈ L, x.Blank) :
    ∀ x ∈ L', x.Blank := by
  have hr : r.Blank := hL r h.mem
  intro x hx
  cases h with
  | @mergeBoth A B a b =>
      have ha : (a.setStop b.stop).Blank := hL a (by simp)
      simp only [List.mem_append, List.mem_cons] at hx
      rcases hx with hx | rfl | hx
      · exact hL x (by simp [hx])
      · exact ha
      · exact hL x (by simp [hx])
  | @mergeLeft A B a =>
      have ha : (a.setStop r.stop).Blank := hL a (by simp)
      simp only [List.mem_append, List.mem_cons] at hx
      rcases hx with hx | rfl | hx
      · exact hL x (by simp [hx])
      · exact ha
      · exact hL x (by simp [hx])
  | @mergeRight A B b =>
      have hb : (b.setStart r.start).Blank := hL b (by simp)
      simp only [List.mem_append, List.mem_cons] at hx
      rcases hx with hx | rfl | hx
      · exact hL x (by simp [hx])
      · exact hb
      · exact hL x (by simp [hx])
  | repurpose =>
      simp only [List.mem_append, List.mem_cons] at hx
      rcases hx with hx | rfl | hx
      · exact hL x (by simp [hx])
      · exact Operation.blank_repurpose hc r
      · exact hL x (by simp [hx])
  | @startMerge A B a =>
      have ha : (a.setStop e).Blank := hL a (by simp)
      simp only [List.mem_append, List.mem_cons] at hx
      rcases hx with hx | rfl | rfl | hx
      · exact hL x (by simp [hx])
      · exact ha
      · exact Region.Blank.clear (a := r.setStart e) hr _
      · exact hL x (by simp [hx])
  | startSpawn =>
      simp only [List.mem_append, List.mem_cons] at hx
      rcases hx with hx | rfl | rfl | hx
      · exact hL x (by simp [hx])
      · exact Operation.blank_spawned hc _ _
      · exact Region.Blank.clear (a := r.setStart e) hr _
      · exact hL x (by simp [hx])
  | @endMerge A B b =>
      have hb : (b.setStart v).Blank := hL b (by simp)
      simp only [List.mem_append, List.mem_cons] at hx
      rcases hx with hx | rfl | rfl | hx
      · exact hL x (by simp [hx])
      · exact Region.Blank.clear (a := r.setStop v) hr _
      · exact hb
      · exact hL x (by simp [hx])
  | endSpawn =>
      simp only [List.mem_append, List.mem_cons] at hx
      rcases hx with hx | rfl | rfl | hx
      · exact hL x (by simp [hx])
      · exact Region.Blank.clear (a := r.setStop v) hr _
      · exact Operation.blank_spawned hc _ _
      · exact hL x (by simp [hx])
  | middle =>
      simp only [List.mem_append, List.mem_cons] at hx
      rcases hx with hx | rfl | rfl | rfl | hx
      · exact hL x (by simp [hx])
      · exact Region.Blank.clear (a := r.setStop v) hr _
      · exact Operation.blank_spawned hc _ _
      · exact hr.above e
      · exact hL x (by simp [hx])

/-- A pass keeps the invariant of the region list. -/
theorem RegionStep.inv (h : RegionStep op v e r L L') (hve : v < e)
    (hc : op.isAllocation = true → op.newContent ≠ .free) (hL : RegionInv lo hi L) :
    RegionInv lo hi L' :=
  ⟨h.tiles hve hL.tiles, h.merged hc hL.merged, h.blank hc hL.blank⟩

end Preserve

/-! ## The page map -/

/-- The attributes of the region around an address. -/
def pageMap (L : List Region) (x : Nat) : Option PageAttributes :=
  paint Region.start Region.stop Region.attributes L x

/-- Where the pages changed by a pass begin. -/
def Operation.changedFrom (op : Operation) (v : Nat) (r : Region) : Nat :=
  if op.MeetsLeft v r then r.start else v

/-- Where the pages changed by a pass end. -/
def Operation.changedTo (op : Operation) (e : Nat) (r : Region) : Nat :=
  if op.MeetsRight e r then r.stop else e

/-- Painting a stretch behind a common prefix. -/
theorem pageMap_append {A M M' : List Region} {lo m hi p q : Nat} {c : PageAttributes}
    (hA : Tiles Region.start Region.stop lo A m) (hM : Tiles Region.start Region.stop m M hi)
    (hM' : Tiles Region.start Region.stop m M' hi) (hp : m ≤ p)
    (h : ∀ x, m ≤ x → pageMap M' x = if p ≤ x ∧ x < q then some c else pageMap M x) (x : Nat) :
    pageMap (A ++ M') x = if p ≤ x ∧ x < q then some c else pageMap (A ++ M) x := by
  unfold pageMap at h ⊢
  rw [paint_append, paint_append]
  rcases Nat.lt_or_ge x m with hx | hx
  · rw [hM.paint_eq_none (Or.inl hx), hM'.paint_eq_none (Or.inl hx), if_neg (by omega)]
  · rw [hA.paint_eq_none (Or.inr hx), Option.none_or, Option.none_or, h x hx]

/-- A pass gives the pages of its stretch the attributes of the operation and
leaves every other page alone. -/
theorem RegionStep.pageMap_eq {op : Operation} {v e lo hi : Nat} {r : Region}
    {L L' : List Region} (h : RegionStep op v e r L L') (hve : v < e) (hL : RegionInv lo hi L)
    (x : Nat) :
    pageMap L' x = if op.changedFrom v r ≤ x ∧ x < op.changedTo e r then some op.attributes
      else pageMap L x := by
  have hL' := h.tiles hve hL.tiles
  have hh := h.hits
  have hlow := hh.lower
  have hupp := hh.upper
  have htiles := hL.tiles
  unfold Operation.changedFrom Operation.changedTo
  cases h with
  | @mergeBoth A B a b _ hl hr ha hb =>
      have hatt := Operation.attributes_of_leftMergeable ha (hL.blank a (by simp))
      have hbtt := Operation.attributes_of_rightMergeable hb (hL.blank b (by simp))
      obtain ⟨m, hA, hM⟩ := tiles_append.mp htiles
      obtain ⟨h1, h2, h3, h4, h5, h6, h7⟩ := id hM
      rw [if_pos hl, if_pos hr]
      refine pageMap_append hA hM ?_ (by omega) (fun x hx => ?_) x
      · exact ⟨h1, by simp only [Region.start_setStop, Region.stop_setStop]; omega, h7⟩
      · simp only [pageMap, paint_cons, Region.start_setStop, Region.stop_setStop,
          Region.attributes_setStop, hatt, hbtt]
        split_ifs <;> first | rfl | omega
  | @mergeLeft A B a _ hl hr ha hb =>
      have hatt := Operation.attributes_of_leftMergeable ha (hL.blank a (by simp))
      obtain ⟨m, hA, hM⟩ := tiles_append.mp htiles
      obtain ⟨h1, h2, h3, h4, h5⟩ := id hM
      rw [if_pos hl, if_pos hr]
      refine pageMap_append hA hM ?_ (by omega) (fun x hx => ?_) x
      · exact ⟨h1, by simp only [Region.start_setStop, Region.stop_setStop]; omega, h5⟩
      · simp only [pageMap, paint_cons, Region.start_setStop, Region.stop_setStop,
          Region.attributes_setStop, hatt]
        split_ifs <;> first | rfl | omega
  | @mergeRight A B b _ hl hr ha hb =>
      have hbtt := Operation.attributes_of_rightMergeable hb (hL.blank b (by simp))
      obtain ⟨m, hA, hM⟩ := tiles_append.mp htiles
      obtain ⟨h1, h2, h3, h4, h5⟩ := id hM
      rw [if_pos hl, if_pos hr]
      refine pageMap_append hA hM ?_ (by omega) (fun x hx => ?_) x
      · exact ⟨h1, by simp only [Region.start_setStart, Region.stop_setStart]; omega, h5⟩
      · simp only [pageMap, paint_cons, Region.start_setStart, Region.stop_setStart,
          Region.attributes_setStart, hbtt]
        split_ifs <;> first | rfl | omega
  | @repurpose A B _ hl hr ha hb =>
      obtain ⟨m, hA, hM⟩ := tiles_append.mp htiles
      obtain ⟨h1, h2, h3⟩ := id hM
      rw [if_pos hl, if_pos hr]
      refine pageMap_append hA hM ?_ (by omega) (fun x hx => ?_) x
      · simpa using ⟨h1, h2, h3⟩
      · simp only [pageMap, paint_cons, Operation.start_repurpose, Operation.stop_repurpose,
          Operation.attributes_repurpose]
        split_ifs <;> rfl
  | @startMerge A B a _ hl hr ha =>
      have hlt := hh.lt_stop hr
      have hatt := Operation.attributes_of_leftMergeable ha (hL.blank a (by simp))
      obtain ⟨m, hA, hM⟩ := tiles_append.mp htiles
      obtain ⟨m', hA', hM'⟩ := tiles_append.mp hL'
      obtain ⟨h1, h2, h3, h4, h5⟩ := id hM
      obtain rfl : m' = m := hM'.1.symm.trans h1
      rw [if_pos hl, if_neg hr]
      refine pageMap_append hA hM hM' (by omega) (fun x hx => ?_) x
      simp only [pageMap, paint_cons, Region.start_setStop, Region.stop_setStop,
        Region.attributes_setStop, hatt, Region.start_clear, Region.stop_clear,
        Region.start_setStart, Region.stop_setStart, Region.attributes_clear_low,
        Region.attributes_setStart]
      split_ifs <;> first | rfl | omega
  | @startSpawn A B _ hl hr ha =>
      have hlt := hh.lt_stop hr
      obtain ⟨m, hA, hM⟩ := tiles_append.mp htiles
      obtain ⟨m', hA', hM'⟩ := tiles_append.mp hL'
      obtain ⟨h1, h2, h3⟩ := id hM
      obtain rfl : m' = m := by
        have := hM'.1
        rw [Operation.start_spawned] at this
        omega
      rw [if_pos hl, if_neg hr]
      refine pageMap_append hA hM hM' (by omega) (fun x hx => ?_) x
      simp only [pageMap, paint_cons, Operation.start_spawned, Operation.stop_spawned,
        Operation.attributes_spawned, Region.start_clear, Region.stop_clear,
        Region.start_setStart, Region.stop_setStart, Region.attributes_clear_low,
        Region.attributes_setStart]
      split_ifs <;> first | rfl | omega
  | @endMerge A B b _ hl hr hb =>
      have hlt := hh.start_lt hl
      have hbtt := Operation.attributes_of_rightMergeable hb (hL.blank b (by simp))
      obtain ⟨m, hA, hM⟩ := tiles_append.mp htiles
      obtain ⟨m', hA', hM'⟩ := tiles_append.mp hL'
      obtain ⟨h1, h2, h3, h4, h5⟩ := id hM
      obtain rfl : m' = m := hM'.1.symm.trans h1
      rw [if_neg hl, if_pos hr]
      refine pageMap_append hA hM hM' (by omega) (fun x hx => ?_) x
      simp only [pageMap, paint_cons, Region.start_setStop, Region.stop_setStop,
        Region.attributes_setStop, hbtt, Region.start_clear, Region.stop_clear,
        Region.start_setStart, Region.stop_setStart, Region.attributes_clear_high,
        Region.attributes_setStart]
      split_ifs <;> first | rfl | omega
  | @endSpawn A B _ hl hr hb =>
      have hlt := hh.start_lt hl
      obtain ⟨m, hA, hM⟩ := tiles_append.mp htiles
      obtain ⟨m', hA', hM'⟩ := tiles_append.mp hL'
      obtain ⟨h1, h2, h3⟩ := id hM
      obtain rfl : m' = m := hM'.1.symm.trans h1
      rw [if_neg hl, if_pos hr]
      refine pageMap_append hA hM hM' (by omega) (fun x hx => ?_) x
      simp only [pageMap, paint_cons, Operation.start_spawned, Operation.stop_spawned,
        Operation.attributes_spawned, Region.start_clear, Region.stop_clear,
        Region.start_setStop, Region.stop_setStop, Region.attributes_clear_high,
        Region.attributes_setStop]
      split_ifs <;> first | rfl | omega
  | @middle A B _ hl hr =>
      have hlt := hh.start_lt hl
      have hlt' := hh.lt_stop hr
      obtain ⟨m, hA, hM⟩ := tiles_append.mp htiles
      obtain ⟨m', hA', hM'⟩ := tiles_append.mp hL'
      obtain ⟨h1, h2, h3⟩ := id hM
      obtain rfl : m' = m := hM'.1.symm.trans h1
      rw [if_neg hl, if_neg hr]
      refine pageMap_append hA hM hM' (by omega) (fun x hx => ?_) x
      simp only [pageMap, paint_cons, Operation.start_spawned, Operation.stop_spawned,
        Operation.attributes_spawned, Region.start_clear, Region.stop_clear,
        Region.start_setStop, Region.stop_setStop, Region.attributes_clear_high,
        Region.attributes_setStop, Region.start_above, Region.stop_above,
        Region.attributes_above]
      split_ifs <;> first | rfl | omega

end Beelzebub.Memory
