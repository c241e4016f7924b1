import Beelzebub.Memory.Creation

/-!
# The allocation spaces after bootstrap

`Remap` moves the links between the spaces of one page.  Together with the loop of
`Relocation` this says what `Bootstrap` leaves behind: everything is in the higher half
exactly if that one page holds all records.
-/

namespace Beelzebub.Memory.Machine

open VmmArc Linked

variable {m m' : Machine} {e : Layout} {es : List Layout} {lo hi old new : Nat} {xs : List Nat}

/-! ## Remapping -/

/-- The records after their links were moved. -/
def remapped (old new : Nat) (xs : List Nat) (spaces : Nat → SpaceRecord) (a : Nat) :
    SpaceRecord :=
  if a ∈ xs then remapRecord old new (spaces a) else spaces a

/-- The new link to the record at an address. -/
def linkTo (old new : Nat) (a : Option Nat) : Nat := a.elim 0 (moved old new)

theorem movedLink_eq {p : Nat} {a : Option Nat} (h : link 0 p = a) :
    movedLink old new p = linkTo old new a := by
  subst h
  unfold movedLink
  split
  next hp =>
    subst hp
    rfl
  next hp =>
    rw [link_of_ne hp]
    rfl

/-- The loop of `Remap`, over the records from the last to the first. -/
theorem remapChain_spec (xs : List Nat) (n cur : Nat) (m : Machine) (hn : xs.length < n)
    (hcur : cur = linkTo old new xs.head?)
    (hprev : Chain (fun a => link 0 (m.spaces a).previous) xs.head? xs)
    (htr : ∀ x ∈ xs, m.translate (moved old new x) = some x)
    (hne : ∀ x ∈ xs, moved old new x ≠ 0) (hnd : xs.Nodup) :
    m.remapChain old new n cur = .ok { m with spaces := remapped old new xs m.spaces } := by
  induction xs generalizing n cur m with
  | nil =>
      obtain ⟨n, rfl⟩ := Nat.exists_eq_succ_of_ne_zero (Nat.ne_of_gt hn)
      rw [remapChain, if_pos (show cur = 0 from hcur)]
      rfl
  | cons x xs ih =>
      obtain ⟨n, rfl⟩ := Nat.exists_eq_succ_of_ne_zero (Nat.ne_of_gt (Nat.zero_lt_of_lt hn))
      obtain ⟨hx, hnd'⟩ := List.nodup_cons.mp hnd
      have hcur' : cur = moved old new x := hcur
      have htrx : m.translate cur = some x := hcur' ▸ htr x List.mem_cons_self
      have hnex : cur ≠ 0 := hcur' ▸ hne x List.mem_cons_self
      rw [remapChain, if_neg hnex, fetch_of_translate htrx]
      simp only
      -- the record that was just written is not met again
      have hsame : ∀ y ∈ xs, Function.update m.spaces x
          (remapRecord old new (m.spaces x)) y = m.spaces y := by
        intro y hy
        rw [Function.update_of_ne]
        rintro rfl
        exact hx hy
      have hchain : Chain (fun a => link 0 (Function.update m.spaces x
          (remapRecord old new (m.spaces x)) a).previous) xs.head? xs := by
        refine (chain_congr fun y hy => ?_).mpr (hprev.2.head? ▸ hprev.2)
        simp only [hsame y hy]
      refine (ih n _ { m with spaces := Function.update m.spaces x _ }
        (Nat.lt_of_succ_lt_succ hn) (movedLink_eq hprev.2.head?) hchain
        (fun y hy => htr y (List.mem_cons_of_mem _ hy))
        (fun y hy => hne y (List.mem_cons_of_mem _ hy)) hnd').trans ?_
      refine congrArg (fun f => Except.ok { m with spaces := f }) ?_
      funext a
      unfold remapped
      by_cases ha : a = x
      · subst ha
        rw [if_neg hx, if_pos List.mem_cons_self]
        exact Function.update_self ..
      · simp only [List.mem_cons, ha, false_or, Function.update_of_ne ha]

/-- The state once the links have moved. -/
def withLinks (loc : Nat) (xs : List Nat) (m : Machine) : Machine :=
  { m with
    pages := Function.update m.pages loc (some m.mainAllocator)
    mainAllocator := loc
    allocators := Function.update m.allocators m.mainAllocator
      { firstSpace := linkTo m.mainAllocator loc xs.head?
        lastSpace := linkTo m.mainAllocator loc xs.getLast? }
    spaces := remapped m.mainAllocator loc xs.reverse m.spaces }

theorem pages_withLinks : (m.withLinks lo xs).pages lo = some m.mainAllocator := by
  exact Function.update_self ..

/-- A byte of the page that was mapped to the page of the allocator. -/
theorem translate_update (hmod : lo % pageSize = 0) (hlo : higherHalfStart ≤ lo)
    (hpages : m.pages lo = some old) {b : Nat} (hb : b < pageSize) :
    m.translate (lo + b) = some (old + b) := by
  have hge : ¬lo + b < lowerHalfEnd := by
    have : lowerHalfEnd ≤ higherHalfStart := by decide
    intro h
    exact absurd (Nat.le_trans this hlo) (Nat.not_le_of_lt (Nat.lt_of_le_of_lt (by omega) h))
  have hoff : (lo + b) % pageSize = b := by
    unfold pageSize at *
    omega
  rw [translate, if_neg hge, hoff, Nat.add_sub_cancel, hpages]
  rfl

/-- Every record is reached through its new address. -/
theorem translate_moved (hmod : lo % pageSize = 0) (hlo : higherHalfStart ≤ lo)
    (hpages : m.pages lo = some old) {x b : Nat} (hx : x + b < lowerHalfEnd)
    (hin : old ≤ x → x < old + pageSize → x + b < old + pageSize) :
    m.translate (moved old lo x + b) = some (x + b) := by
  unfold moved
  split
  next h =>
    have hrw : x - old + lo + b = lo + (x + b - old) := by omega
    rw [hrw, translate_update hmod hlo hpages (by have := hin h.1 h.2; omega)]
    congr 1
    omega
  next h => rw [translate, if_pos hx]

theorem translate_low {x : Nat} (hx : x < lowerHalfEnd) : m.translate x = some x := by
  rw [translate, if_pos hx]

theorem moved_ne_zero {x : Nat} (hx : 0 < x) (hlo : higherHalfStart ≤ lo) :
    moved old lo x ≠ 0 := by
  have : 0 < higherHalfStart := by decide
  unfold moved
  split <;> omega

/-- Mapping the page with the links and moving them. -/
theorem relocateLinks_spec {fuel cur : Nat} (hc : m.Chained xs) (hfuel : xs.length < fuel)
    (hcur : cur - cur % pageSize = m.mainAllocator) (hmod : lo % pageSize = 0)
    (hlo : higherHalfStart ≤ lo) (hhi : lo ≤ fractalStart) :
    ((∃ r, m.relocateLinks fuel cur lo = .error (.mapping r)) ∧ ¬m.Free lo 1) ∨
      m.relocateLinks fuel cur lo = .ok (m.withLinks lo xs) ∧ m.Free lo 1 := by
  unfold relocateLinks
  rw [hcur]
  rcases mapPage_spec hmod hc.aligned hlo hhi m with ⟨⟨r, herr⟩, hfree⟩ | ⟨hok, hfree⟩
  · rw [herr]
    exact Or.inl ⟨⟨r, rfl⟩, hfree⟩
  refine Or.inr ⟨?_, hfree⟩
  rw [hok]
  have hmain : moved m.mainAllocator lo m.mainAllocator = lo := by
    have : 0 < pageSize := by decide
    rw [moved, if_pos ⟨Nat.le_refl _, by omega⟩]
    omega
  have hfetch : Machine.fetch lo { m with
      pages := Function.update m.pages lo (some m.mainAllocator), mainAllocator := lo } =
      .ok m.mainAllocator := by
    refine fetch_of_translate ?_
    have h := translate_update (m := { m with
      pages := Function.update m.pages lo (some m.mainAllocator), mainAllocator := lo }) (b := 0)
      hmod hlo (Function.update_self ..) (by decide)
    rwa [Nat.add_zero] at h
  simp only [remap, hmain, hfetch, movedLink_eq hc.first, movedLink_eq hc.last]
  have hrecord : ∀ x ∈ xs.reverse, 0 < x ∧ x + spaceSize ≤ lowerHalfEnd :=
    fun x hx => hc.record x (List.mem_reverse.mp hx)
  refine (remapChain_spec xs.reverse fuel _ _ ?_ ?_ ?_ ?_ ?_ ?_).trans rfl
  · rw [List.length_reverse]
    exact hfuel
  · rw [List.head?_reverse]
  · rw [List.head?_reverse]
    exact hc.seg.chain_prev
  · intro x hx
    have hbound := (hrecord x hx).2
    unfold spaceSize at hbound
    refine translate_moved (b := 0) hmod hlo (Function.update_self ..) (by omega) (fun _ h => h)
  · intro x hx
    exact moved_ne_zero (hrecord x hx).1 hlo
  · exact List.nodup_reverse.mpr hc.nodup

/-- The records without their links are as before. -/
theorem pending_withLinks (h : m.Pending e) : (m.withLinks lo xs).Pending e := by
  have hspaces : (m.withLinks lo xs).spaces e.addr = m.spaces e.addr ∨
      (m.withLinks lo xs).spaces e.addr = remapRecord m.mainAllocator lo (m.spaces e.addr) := by
    show remapped _ _ _ _ _ = _ ∨ remapped _ _ _ _ _ = _
    unfold remapped
    split
    · exact Or.inr rfl
    · exact Or.inl rfl
  constructor
  case sub => exact h.sub
  all_goals rcases hspaces with heq | heq <;> rw [heq]
  · exact h.memoryStart
  · exact h.memoryStart
  · exact h.controlAreaSize
  · exact h.controlAreaSize
  · exact h.largeFrameCount
  · exact h.largeFrameCount

/-- A doubly linked list of records is a sequence of spaces. -/
theorem sequence_of_seg (old new : Nat) {next prev : Nat → Option Nat} {p : Option Nat}
    (hseg : Seg next prev p (es.map Layout.addr) none)
    (hnext : ∀ e ∈ es, (m.spaces e.addr).next = linkTo old new (next e.addr))
    (htr : ∀ e ∈ es, m.translate (moved old new e.addr) = some e.addr)
    (hne : ∀ e ∈ es, moved old new e.addr ≠ 0) : m.Sequence es := by
  induction es generalizing p with
  | nil => trivial
  | cons e es ih =>
      obtain ⟨-, hn, hrest⟩ := hseg
      have hfirst := hnext e List.mem_cons_self
      rw [hn] at hfirst
      cases es with
      | nil => exact hfirst
      | cons e' es =>
          have hmem : e' ∈ e :: e' :: es := by simp
          have hfirst' : (m.spaces e.addr).next = moved old new e'.addr := hfirst
          refine ⟨?_, ih hrest (fun x hx => hnext x (List.mem_cons_of_mem _ hx))
            (fun x hx => htr x (List.mem_cons_of_mem _ hx))
            (fun x hx => hne x (List.mem_cons_of_mem _ hx))⟩
          rw [hfirst']
          exact ⟨hne e' hmem, htr e' hmem⟩

/-! ## Bootstrap -/

/-- The first round of the loop moves the links. -/
theorem relocate_links {fuel n cur : Nat} (hcur : cur < higherHalfStart) :
    m.relocate fuel (n + 1) cur true lo =
      match m.relocateLinks fuel cur lo with
      | .error f => .error f
      | .ok m' => m'.relocate fuel (n + 1) cur false (lo + pageSize) := by
  rw [relocate, if_pos ⟨hcur, rfl⟩]
  cases m.relocateLinks fuel cur lo with
  | error f => rfl
  | ok m' =>
      exact (relocate_step fuel n cur m').symm

theorem kernelHeapStart_mod : kernelHeapStart % pageSize = 0 := by decide

theorem higherHalf_le_heap : higherHalfStart ≤ kernelHeapStart := by decide

theorem heap_le_fractal : kernelHeapStart + pageSize ≤ fractalStart := by decide

/-- The state after `Bootstrap`: the links in the first page of the heap, the structures
of the spaces behind it. -/
theorem bootstrap_spec {used : List (Nat × Nat)} (fuel : Nat) (h : m.Made used es)
    (hes : es ≠ []) (hfuel : es.length < fuel) :
    ((∃ r, m.bootstrap fuel = .error (.mapping r)) ∧
        ¬m.Free kernelHeapStart (1 + pageCounts es)) ∨
      ∃ m', m.bootstrap fuel =
          .ok (m', kernelHeapStart + pageSize + pageCounts es * pageSize) ∧
        m.Free kernelHeapStart (1 + pageCounts es) ∧
        m'.SettledAll es (kernelHeapStart + pageSize) ∧
        (m.withLinks kernelHeapStart (es.map Layout.addr)).Touches m' es
          (kernelHeapStart + pageSize + pageCounts es * pageSize) := by
  cases es with
  | nil => exact absurd rfl hes
  | cons e es =>
      have hc := h.chained
      have hbound := hc.bound
      have hmod := hc.aligned
      obtain ⟨n, rfl⟩ := Nat.exists_eq_succ_of_ne_zero (Nat.ne_of_gt (Nat.zero_lt_of_lt hfuel))
      obtain ⟨hfirst, -⟩ := link_eq_some.mp (hc.first.trans rfl : _ = some e.addr)
      have haddr := h.near 0 e rfl (by decide)
      rw [Nat.zero_mul, Nat.add_zero] at haddr
      have hcur : e.addr - e.addr % pageSize = m.mainAllocator := by
        unfold pageSize allocatorSize at *
        omega
      have hlow : e.addr < lowerHalfEnd := by
        unfold pageSize allocatorSize at *
        omega
      have hhigh : e.addr < higherHalfStart := Nat.lt_of_lt_of_le hlow (by decide)
      have hfetch : m.fetch m.mainAllocator = .ok m.mainAllocator := by
        refine fetch_of_translate (translate_low ?_)
        unfold pageSize at hbound
        omega
      have hsplit : m.Free kernelHeapStart (1 + pageCounts (e :: es)) ↔
          m.Free kernelHeapStart 1 ∧
            m.Free (kernelHeapStart + pageSize) (pageCounts (e :: es)) := by
        rw [free_append, Nat.one_mul]
      unfold bootstrap
      rw [hfetch]
      simp only
      rw [hfirst, relocate_links hhigh]
      rcases relocateLinks_spec hc (by rw [List.length_map]; exact hfuel) hcur
          kernelHeapStart_mod higherHalf_le_heap (Nat.le_trans (Nat.le_add_right ..)
          heap_le_fractal) with ⟨⟨r, herr⟩, hfree⟩ | ⟨hok, hfree⟩
      · rw [herr]
        exact Or.inl ⟨⟨r, rfl⟩, fun hall => hfree (hsplit.mp hall).1⟩
      rw [hok]
      simp only
      have hfree₁ : (m.withLinks kernelHeapStart ((e :: es).map Layout.addr)).Free
          (kernelHeapStart + pageSize) (pageCounts (e :: es)) ↔
          m.Free (kernelHeapStart + pageSize) (pageCounts (e :: es)) := by
        refine free_congr fun v hv => ?_
        show Function.update m.pages _ _ v = m.pages v
        rw [Function.update_of_ne]
        unfold pageSize at hv
        omega
      have hrecord : ∀ x ∈ e :: es, 0 < x.addr ∧ x.addr + spaceSize ≤ lowerHalfEnd :=
        fun x hx => hc.record _ (List.mem_map_of_mem hx)
      have hseq : (m.withLinks kernelHeapStart ((e :: es).map Layout.addr)).Sequence (e :: es) := by
        refine sequence_of_seg m.mainAllocator kernelHeapStart hc.seg ?_ ?_ ?_
        · intro x hx
          have hmem : x.addr ∈ ((e :: es).map Layout.addr).reverse :=
            List.mem_reverse.mpr (List.mem_map_of_mem hx)
          show (remapped _ _ _ _ _).next = _
          rw [remapped, if_pos hmem]
          exact movedLink_eq rfl
        · intro x hx
          have := (hrecord x hx).2
          unfold spaceSize at this
          exact translate_moved (b := 0) kernelHeapStart_mod higherHalf_le_heap pages_withLinks
            (by omega) (fun _ h => h)
        · exact fun x hx => moved_ne_zero (hrecord x hx).1 higherHalf_le_heap
      rcases relocate_spec (n + 1) (n + 1) e.addr (Nat.lt_of_succ_lt hfuel) (translate_low hlow)
          hseq (fun x hx => pending_withLinks (h.pending x hx)) h.aligned h.apart
          (by decide) (Nat.le_trans higherHalf_le_heap (Nat.le_add_right ..)) heap_le_fractal
        with ⟨herr, hno⟩ | ⟨m', hok', hfree', hset, htouch⟩
      · exact Or.inl ⟨herr, fun hall => hno (hfree₁.mpr (hsplit.mp hall).2)⟩
      · exact Or.inr ⟨m', hok', hsplit.mpr ⟨hfree, hfree₁.mp hfree'⟩, hset, htouch⟩

/-! ## Relocated spaces -/

/-- A pointer to `size` bytes that was moved to the higher half. -/
def Carried (m m' : Machine) (size p p' : Nat) : Prop :=
  ∀ b < size, higherHalfStart ≤ p' + b ∧
    ∃ a, m.translate (p + b) = some a ∧ m'.translate (p' + b) = some a

/-- The same for a pointer to a space that may be null. -/
def CarriedLink (m m' : Machine) (p p' : Nat) : Prop :=
  p = 0 ∧ p' = 0 ∨ p ≠ 0 ∧ p' ≠ 0 ∧ m.Carried m' spaceSize p p'

/-- The record that a link leads to. -/
def follow (m : Machine) (p : Nat) : Option Nat := (link 0 p).bind m.translate

/-- The spaces are chained in this order, in both directions. -/
structure Chains (m : Machine) (alloc : Nat) (spaces : List Nat) : Prop where
  main : m.translate m.mainAllocator = some alloc
  first : m.follow (m.allocators alloc).firstSpace = spaces.head?
  last : m.follow (m.allocators alloc).lastSpace = spaces.getLast?
  seg : Seg (fun a => m.follow (m.spaces a).next) (fun a => m.follow (m.spaces a).previous) none
    spaces none

/-- The physical address of a descriptor, before anything is moved. -/
def descAt (m : Machine) (a i : Nat) : Nat := (m.spaces a).map + i * LargeFrameDescriptor.size

/-- The virtual pages with the descriptors of a space. -/
def structurePages (m m' : Machine) (a : Nat) : List Nat :=
  (List.range (((m.spaces a).controlAreaSize + (pageSize - 1)) / pageSize)).map
      (fun j => (m'.spaces a).map + j * pageSize) ++
    (List.range (m.spaces a).largeFrameCount).map fun i => m'.subDescriptors (m.descAt a i)

/-- The pointers to the allocator and to records. -/
def linkPointers (m : Machine) (alloc : Nat) (spaces : List Nat) : List Nat :=
  m.mainAllocator :: (m.allocators alloc).firstSpace :: (m.allocators alloc).lastSpace ::
    spaces.flatMap fun a => [(m.spaces a).next, (m.spaces a).previous]

/-- No pointer into the identity map is left: every pointer is in the higher half and leads
to what it led to, the spaces are chained as before, and no page has two uses. -/
structure Relocated (m m' : Machine) (spaces : List Nat) : Prop where
  main : m.Carried m' allocatorSize m.mainAllocator m'.mainAllocator
  first : m.CarriedLink m' (m.allocators m.mainAllocator).firstSpace
    (m'.allocators m.mainAllocator).firstSpace
  last : m.CarriedLink m' (m.allocators m.mainAllocator).lastSpace
    (m'.allocators m.mainAllocator).lastSpace
  next : ∀ a ∈ spaces, m.CarriedLink m' (m.spaces a).next (m'.spaces a).next
  previous : ∀ a ∈ spaces, m.CarriedLink m' (m.spaces a).previous (m'.spaces a).previous
  map : ∀ a ∈ spaces, m.Carried m' (m.spaces a).controlAreaSize (m.spaces a).map
    (m'.spaces a).map
  sub : ∀ a ∈ spaces, ∀ i < (m.spaces a).largeFrameCount,
    m.Carried m' pageSize (m.subDescriptors (m.descAt a i)) (m'.subDescriptors (m.descAt a i))
  before : m.Chains m.mainAllocator spaces
  after : m'.Chains m.mainAllocator spaces
  distinct : (spaces.flatMap (m.structurePages m')).Nodup
  links : ∀ p ∈ m'.linkPointers m.mainAllocator spaces,
    p - p % pageSize ∉ spaces.flatMap (m.structurePages m')

/-- The pages of a space that was moved follow each other. -/
theorem structurePages_settled (hp : m.Pending e) (hmap : (m.spaces e.addr).map = e.memoryStart)
    (hs : m'.Settled e lo) :
    m.structurePages m' e.addr = (List.range (pageCount e)).map fun j => lo + j * pageSize := by
  have hdiv : e.controlSize / pageSize * pageSize = e.controlSize :=
    Nat.div_mul_cancel (Nat.dvd_of_mod_eq_zero e.controlSize_mod)
  have hcount : ((m.spaces e.addr).controlAreaSize + (pageSize - 1)) / pageSize =
      e.controlSize / pageSize := by
    rw [hp.controlAreaSize]
    exact (Nat.mul_div_cancel _ (by decide)).symm
  rw [structurePages, hcount, hs.map, hp.largeFrameCount, pageCount, List.range_add,
    List.map_append, List.map_map]
  congr 1
  refine List.map_congr_left fun i hi => ?_
  have hdesc : m.descAt e.addr i = e.desc i := by
    rw [descAt, hmap]
    rfl
  rw [hdesc, hs.sub i (List.mem_range.mp hi), Function.comp_apply, Nat.add_mul, hdiv,
    Nat.add_assoc]

theorem structurePages_settledAll (hp : ∀ e ∈ es, m.Pending e)
    (hmap : ∀ e ∈ es, (m.spaces e.addr).map = e.memoryStart) (hs : m'.SettledAll es lo) :
    (es.map Layout.addr).flatMap (m.structurePages m') =
      (List.range (pageCounts es)).map fun j => lo + j * pageSize := by
  induction es generalizing lo with
  | nil => rfl
  | cons e es ih =>
      obtain ⟨hse, hrest⟩ := hs
      rw [List.map_cons, List.flatMap_cons,
        structurePages_settled (hp e List.mem_cons_self) (hmap e List.mem_cons_self) hse,
        ih (fun x hx => hp x (List.mem_cons_of_mem _ hx))
          (fun x hx => hmap x (List.mem_cons_of_mem _ hx)) hrest,
        pageCounts, List.range_add, List.map_append, List.map_map]
      congr 1
      refine List.map_congr_left fun j _ => ?_
      rw [Function.comp_apply, Nat.add_mul, pageCount_mul, Nat.add_assoc]

/-- Where a settled space is. -/
theorem SettledAll.mem (hs : m'.SettledAll es lo) (he : e ∈ es) :
    ∃ lo', lo ≤ lo' ∧ m'.Settled e lo' := by
  induction es generalizing lo with
  | nil => cases he
  | cons x es ih =>
      rcases List.mem_cons.mp he with rfl | he
      · exact ⟨lo, Nat.le_refl _, hs.1⟩
      · obtain ⟨lo', hle, hs'⟩ := ih hs.2 he
        exact ⟨lo', Nat.le_trans (Nat.le_add_right ..) hle, hs'⟩

section Booted

variable (htouch : (m.withLinks kernelHeapStart (es.map Layout.addr)).Touches m' es hi)

include htouch

theorem booted_next (he : e ∈ es) : (m'.spaces e.addr).next =
    linkTo m.mainAllocator kernelHeapStart (link 0 (m.spaces e.addr).next) := by
  have hmem : e.addr ∈ (es.map Layout.addr).reverse :=
    List.mem_reverse.mpr (List.mem_map_of_mem he)
  rw [htouch.record]
  show (remapped _ _ _ _ _).next = _
  rw [remapped, if_pos hmem]
  exact movedLink_eq rfl

theorem booted_previous (he : e ∈ es) : (m'.spaces e.addr).previous =
    linkTo m.mainAllocator kernelHeapStart (link 0 (m.spaces e.addr).previous) := by
  have hmem : e.addr ∈ (es.map Layout.addr).reverse :=
    List.mem_reverse.mpr (List.mem_map_of_mem he)
  rw [htouch.record]
  show (remapped _ _ _ _ _).previous = _
  rw [remapped, if_pos hmem]
  exact movedLink_eq rfl

theorem booted_allocator : m'.allocators m.mainAllocator =
    { firstSpace := linkTo m.mainAllocator kernelHeapStart (es.map Layout.addr).head?
      lastSpace := linkTo m.mainAllocator kernelHeapStart (es.map Layout.addr).getLast? } := by
  rw [htouch.allocators]
  exact Function.update_self ..

/-- Where the new link to a record leads. -/
theorem booted_translate {x b : Nat} (hx : x + b < lowerHalfEnd)
    (hin : m.mainAllocator ≤ x → x < m.mainAllocator + pageSize →
      x + b < m.mainAllocator + pageSize) :
    m'.translate (moved m.mainAllocator kernelHeapStart x + b) = some (x + b) :=
  htouch.translate
    (translate_moved kernelHeapStart_mod higherHalf_le_heap pages_withLinks hx hin)

theorem booted_main : m'.mainAllocator = kernelHeapStart := htouch.mainAllocator

variable {used : List (Nat × Nat)} (h : m.Made used es)

include h

/-- A link to one of the records, before and after. -/
theorem booted_follow {o : Option Nat} (ho : ∀ x ∈ o, x ∈ es.map Layout.addr) :
    m'.follow (linkTo m.mainAllocator kernelHeapStart o) = o := by
  cases o with
  | none => rfl
  | some x =>
      obtain ⟨hpos, hlow⟩ := h.chained.record x (ho x rfl)
      unfold spaceSize at hlow
      show (link 0 (moved m.mainAllocator kernelHeapStart x)).bind m'.translate = some x
      rw [link_of_ne (moved_ne_zero hpos higherHalf_le_heap)]
      exact booted_translate htouch (b := 0) (by omega) fun _ hlt => hlt

/-- The chain through the new links. -/
theorem booted_chains : m'.Chains m.mainAllocator (es.map Layout.addr) := by
  have hc := h.chained
  have hbound := hc.bound
  unfold pageSize at hbound
  have hmem : ∀ a ∈ es.map Layout.addr, ∃ e ∈ es, e.addr = a := fun a ha => List.mem_map.mp ha
  constructor
  case main =>
    rw [booted_main htouch]
    have hself := booted_translate htouch (x := m.mainAllocator) (b := 0) (by omega)
      (fun _ hlt => hlt)
    have hmoved : moved m.mainAllocator kernelHeapStart m.mainAllocator = kernelHeapStart := by
      have : 0 < pageSize := by decide
      rw [moved, if_pos ⟨Nat.le_refl _, by omega⟩, Nat.sub_self, Nat.zero_add]
    rwa [hmoved] at hself
  case first =>
    rw [booted_allocator htouch]
    exact booted_follow htouch h fun x hx => List.mem_of_mem_head? hx
  case last =>
    rw [booted_allocator htouch]
    exact booted_follow htouch h fun x hx => List.mem_of_getLast? hx
  case seg =>
    refine (seg_congr (fun a ha => ?_) fun a ha => ?_).mpr hc.seg
    · obtain ⟨e, he, rfl⟩ := hmem a ha
      rw [booted_next htouch he]
      exact booted_follow htouch h fun x hx => hc.seg.mem_of_next ha hx
    · obtain ⟨e, he, rfl⟩ := hmem a ha
      rw [booted_previous htouch he]
      exact booted_follow htouch h fun x hx => hc.seg.mem_of_prev ha hx

/-- A link to a record of the first page is in the higher half. -/
theorem booted_carried {p : Nat} (hp : ∀ x ∈ link 0 p, m.mainAllocator ≤ x ∧
    x + spaceSize ≤ m.mainAllocator + pageSize) :
    m.CarriedLink m' p (linkTo m.mainAllocator kernelHeapStart (link 0 p)) := by
  have hbound := h.chained.bound
  cases hl : link 0 p with
  | none => exact Or.inl ⟨link_eq_none.mp hl, rfl⟩
  | some x =>
      obtain ⟨rfl, hne⟩ := link_eq_some.mp hl
      obtain ⟨hge, hle⟩ := hp p hl
      have hmoved : moved m.mainAllocator kernelHeapStart p =
          p - m.mainAllocator + kernelHeapStart := by
        rw [moved, if_pos ⟨hge, by unfold spaceSize at hle; omega⟩]
      refine Or.inr ⟨hne, moved_ne_zero (Nat.pos_of_ne_zero hne) higherHalf_le_heap,
        fun b hb => ⟨?_, p + b, translate_low (by omega), ?_⟩⟩
      · show higherHalfStart ≤ moved _ _ _ + b
        rw [hmoved]
        have := higherHalf_le_heap
        omega
      · exact booted_translate htouch (by omega) fun _ _ => by omega

end Booted

theorem follow_low {p : Nat} {o : Option Nat} (hp : link 0 p = o)
    (ho : ∀ x ∈ o, x < lowerHalfEnd) : m.follow p = o := by
  subst hp
  unfold follow
  cases hl : link 0 p with
  | none => rfl
  | some x => exact translate_low (ho x hl)

/-- The chain through the old links. -/
theorem Chained.chains (hc : m.Chained xs) : m.Chains m.mainAllocator xs := by
  have hbound := hc.bound
  unfold pageSize at hbound
  have hlow : ∀ x ∈ xs, x < lowerHalfEnd := by
    intro x hx
    have := (hc.record x hx).2
    unfold spaceSize at this
    omega
  constructor
  case main => exact translate_low (by omega)
  case first => exact follow_low hc.first fun x hx => hlow x (List.mem_of_mem_head? hx)
  case last => exact follow_low hc.last fun x hx => hlow x (List.mem_of_getLast? hx)
  case seg =>
    refine (seg_congr (fun a ha => ?_) fun a ha => ?_).mpr hc.seg
    · exact follow_low rfl fun x hx => hlow x (hc.seg.mem_of_next ha hx)
    · exact follow_low rfl fun x hx => hlow x (hc.seg.mem_of_prev ha hx)

/-- With at most 33 spaces all records are in the first page. -/
theorem Made.first_page {used : List (Nat × Nat)} (h : m.Made used es) (hlen : es.length ≤ 33)
    {x : Nat} (hx : x ∈ es.map Layout.addr) :
    m.mainAllocator ≤ x ∧ x + spaceSize ≤ m.mainAllocator + pageSize := by
  obtain ⟨e, he, rfl⟩ := List.mem_map.mp hx
  obtain ⟨k, hk⟩ := List.mem_iff_getElem?.mp he
  have hlt : k < es.length := (List.getElem?_eq_some_iff.mp hk).1
  have := h.near k e hk (Nat.lt_of_lt_of_le hlt hlen)
  unfold allocatorSize spaceSize pageSize at *
  omega

/-- The links point into the page at the start of the heap. -/
theorem linkTo_page {o : Option Nat} (hmod : old % pageSize = 0) (ho : ∀ x ∈ o, old ≤ x ∧
    x + spaceSize ≤ old + pageSize) :
    linkTo old kernelHeapStart o - linkTo old kernelHeapStart o % pageSize ≤ kernelHeapStart := by
  cases o with
  | none => exact Nat.zero_le _
  | some x =>
      obtain ⟨hge, hle⟩ := ho x rfl
      show moved _ _ _ - moved _ _ _ % _ ≤ _
      rw [moved, if_pos ⟨hge, by unfold spaceSize at hle; omega⟩]
      have := kernelHeapStart_mod
      unfold spaceSize at hle
      unfold pageSize at *
      omega

/-- The structures of a space have moved. -/
theorem Made.carried_settled {used : List (Nat × Nat)} (h : m.Made used es) (he : e ∈ es)
    (hs : m'.Settled e lo) (hlo : higherHalfStart ≤ lo) :
    m.Carried m' (m.spaces e.addr).controlAreaSize (m.spaces e.addr).map (m'.spaces e.addr).map ∧
      ∀ i < (m.spaces e.addr).largeFrameCount, m.Carried m' pageSize
        (m.subDescriptors (m.descAt e.addr i)) (m'.subDescriptors (m.descAt e.addr i)) := by
  obtain ⟨r, hr, -, hw⟩ := h.within e he
  have hlow := h.low r hr
  have hp := h.pending e he
  have hctrl := hw.control
  refine ⟨fun b hb => ?_, fun i hi b hb => ?_⟩
  · rw [h.map e he, hs.map]
    rw [hp.controlAreaSize] at hb
    have hb' : b < e.controlSize := by
      unfold Layout.controlSize
      unfold pageSize
      omega
    exact ⟨by omega, _, translate_low (by omega), hs.control b hb'⟩
  · have hdesc : m.descAt e.addr i = e.desc i := by
      rw [descAt, h.map e he]
      rfl
    rw [hp.largeFrameCount] at hi
    have hpage := hw.page i hi
    rw [hdesc, hp.sub i hi, hs.sub i hi]
    exact ⟨by omega, _, translate_low (by omega), hs.pages i hi b hb⟩

section Booted

variable {used : List (Nat × Nat)} (h : m.Made used es)
  (htouch : (m.withLinks kernelHeapStart (es.map Layout.addr)).Touches m' es hi)

include h htouch

/-- One page holds all links. -/
theorem relocated (hset : m'.SettledAll es (kernelHeapStart + pageSize))
    (hlen : es.length ≤ 33) : m.Relocated m' (es.map Layout.addr) := by
  have hc := h.chained
  have hbound := hc.bound
  have hpage : ∀ {x}, x ∈ es.map Layout.addr →
      m.mainAllocator ≤ x ∧ x + spaceSize ≤ m.mainAllocator + pageSize := h.first_page hlen
  have hpages := structurePages_settledAll h.pending h.map hset
  have hsettled : ∀ e ∈ es, ∃ lo, higherHalfStart ≤ lo ∧ m'.Settled e lo := by
    intro e he
    obtain ⟨lo, hle, hs⟩ := hset.mem he
    exact ⟨lo, Nat.le_trans higherHalf_le_heap (Nat.le_trans (Nat.le_add_right ..) hle), hs⟩
  -- a page up to the start of the heap has no other use
  have hfirst : ∀ v ≤ kernelHeapStart,
      v ∉ (es.map Layout.addr).flatMap (m.structurePages m') := by
    intro v hv hmem
    rw [hpages] at hmem
    obtain ⟨j, -, rfl⟩ := List.mem_map.mp hmem
    have : 0 < pageSize := by decide
    omega
  constructor
  case main =>
    intro b hb
    have hself := booted_translate htouch (x := m.mainAllocator) (b := b)
      (by unfold allocatorSize pageSize at *; omega)
      (fun _ _ => by unfold allocatorSize at hb; unfold pageSize; omega)
    rw [moved, if_pos ⟨Nat.le_refl _, Nat.lt_add_of_pos_right (by decide)⟩, Nat.sub_self,
      Nat.zero_add] at hself
    rw [booted_main htouch]
    refine ⟨Nat.le_trans higherHalf_le_heap (Nat.le_add_right ..), _, translate_low ?_, hself⟩
    unfold allocatorSize pageSize at *
    omega
  case first =>
    rw [booted_allocator htouch, ← hc.first]
    exact booted_carried htouch h fun x hx => hpage (List.mem_of_mem_head? (hc.first ▸ hx))
  case last =>
    rw [booted_allocator htouch, ← hc.last]
    exact booted_carried htouch h fun x hx => hpage (List.mem_of_getLast? (hc.last ▸ hx))
  case next =>
    intro a ha
    obtain ⟨e, he, rfl⟩ := List.mem_map.mp ha
    rw [booted_next htouch he]
    exact booted_carried htouch h fun x hx => hpage (hc.seg.mem_of_next ha hx)
  case previous =>
    intro a ha
    obtain ⟨e, he, rfl⟩ := List.mem_map.mp ha
    rw [booted_previous htouch he]
    exact booted_carried htouch h fun x hx => hpage (hc.seg.mem_of_prev ha hx)
  case map =>
    intro a ha
    obtain ⟨e, he, rfl⟩ := List.mem_map.mp ha
    obtain ⟨lo, hlo, hs⟩ := hsettled e he
    exact (h.carried_settled he hs hlo).1
  case sub =>
    intro a ha
    obtain ⟨e, he, rfl⟩ := List.mem_map.mp ha
    obtain ⟨lo, hlo, hs⟩ := hsettled e he
    exact (h.carried_settled he hs hlo).2
  case before => exact hc.chains
  case after => exact booted_chains htouch h
  case distinct =>
    rw [hpages]
    refine List.Nodup.map (fun i j hij => ?_) List.nodup_range
    have heq : i * pageSize = j * pageSize := Nat.add_left_cancel hij
    exact Nat.eq_of_mul_eq_mul_right (by decide) heq
  case links =>
    intro p hp
    refine hfirst _ ?_
    have hmod := hc.aligned
    simp only [linkPointers, List.mem_cons, List.mem_flatMap, List.not_mem_nil, or_false] at hp
    rcases hp with rfl | rfl | rfl | ⟨a, ha, rfl | rfl⟩
    · rw [booted_main htouch]
      exact Nat.sub_le ..
    · rw [booted_allocator htouch]
      exact linkTo_page hmod fun x hx => hpage (List.mem_of_mem_head? hx)
    · rw [booted_allocator htouch]
      exact linkTo_page hmod fun x hx => hpage (List.mem_of_getLast? hx)
    · obtain ⟨e, he, rfl⟩ := List.mem_map.mp ha
      rw [booted_next htouch he]
      exact linkTo_page hmod fun x hx => hpage (hc.seg.mem_of_next ha hx)
    · obtain ⟨e, he, rfl⟩ := List.mem_map.mp ha
      rw [booted_previous htouch he]
      exact linkTo_page hmod fun x hx => hpage (hc.seg.mem_of_prev ha hx)

/-- A record outside of the first page keeps its address, and so does the link to it. -/
theorem not_relocated (hlen : 33 < es.length) : ¬m.Relocated m' (es.map Layout.addr) := by
  intro hrel
  have hc := h.chained
  have hk : es[32]? = some es[32] := List.getElem?_eq_getElem (Nat.lt_of_succ_lt hlen)
  have hk' : es[33]? = some es[33] := List.getElem?_eq_getElem hlen
  have hmem : es[32] ∈ es := List.mem_of_getElem? hk
  have hnext : link 0 (m.spaces es[32].addr).next = some es[33].addr := by
    have hx : (es.map Layout.addr)[32]? = some es[32].addr := by
      rw [List.getElem?_map, hk]
      rfl
    have hn := hc.seg.next_getElem? hx
    rw [List.getElem?_map, hk'] at hn
    exact hn
  have hfar := h.far 33 _ hk' (Nat.le_refl _)
  have hlow := (hc.record _ (List.mem_map_of_mem (List.mem_of_getElem? hk'))).2
  obtain ⟨heq, hne⟩ := link_eq_some.mp hnext
  have hmoved := booted_next htouch hmem
  rw [hnext] at hmoved
  have hstay : (m'.spaces es[32].addr).next = es[33].addr := by
    rw [hmoved]
    exact if_neg hfar
  rcases hrel.next _ (List.mem_map_of_mem hmem) with ⟨h0, -⟩ | ⟨-, -, hcar⟩
  · exact hne h0
  · have hhigh := (hcar 0 (by decide)).1
    rw [hstay, Nat.add_zero] at hhigh
    have hcmp : lowerHalfEnd ≤ higherHalfStart := by decide
    unfold spaceSize at hlow
    omega

end Booted

/-- `Bootstrap` leaves no pointer into the identity map exactly if the first page of the
first space holds the records of all spaces, which it does for 33 of them.  It stops early
only if something cannot be mapped. -/
theorem Creates.relocated_iff {used : List (Nat × Nat)} {spaces : List Nat} {fuel : Nat}
    (h : Creates used spaces m) (hne : spaces ≠ []) (hfuel : spaces.length < fuel) :
    (∃ res, m.bootstrap fuel = .error (.mapping res)) ∨
      ∃ m' loc, m.bootstrap fuel = .ok (m', loc) ∧
        (m.Relocated m' spaces ↔ spaces.length ≤ 33) := by
  obtain ⟨es, hes, rfl, hmade⟩ := h.made.2.resolve_left fun h => hne h.1
  rw [List.length_map] at hfuel ⊢
  rcases bootstrap_spec fuel hmade hes hfuel with ⟨herr, -⟩ | ⟨m', hok, -, hset, htouch⟩
  · exact Or.inl herr
  · refine Or.inr ⟨m', _, hok, fun hrel => ?_, relocated hmade htouch hset⟩
    exact Nat.le_of_not_lt fun hlen => not_relocated hmade htouch hlen hrel

/-! ### A machine with some spaces -/

theorem pageCounts_le (hcount : ∀ e ∈ es, e.largeFrameCount ≤ 2 ^ 26) :
    pageCounts es ≤ es.length * 2 ^ 27 := by
  induction es with
  | nil => exact Nat.le_refl _
  | cons e es ih =>
      have hrest := ih fun x hx => hcount x (List.mem_cons_of_mem _ hx)
      have he := hcount e List.mem_cons_self
      rw [pageCounts, List.length_cons, Nat.succ_mul]
      unfold pageCount Layout.controlSize pageSize LargeFrameDescriptor.size
      omega

/-- Nothing fails as long as the heap is empty. -/
theorem Creates.bootstrap_ne_error {used : List (Nat × Nat)} {spaces : List Nat} {fuel : Nat}
    (h : Creates used spaces m) (hne : spaces ≠ []) (hfuel : spaces.length < fuel)
    (hlen : spaces.length ≤ 200) (hpages : ∀ v, m.pages v = none) (res : HandleResult) :
    m.bootstrap fuel ≠ .error (.mapping res) := by
  obtain ⟨es, hes, rfl, hmade⟩ := h.made.2.resolve_left fun h => hne h.1
  rw [List.length_map] at hfuel hlen
  intro herr
  rcases bootstrap_spec fuel hmade hes hfuel with ⟨-, hno⟩ | ⟨m', hok, -⟩
  · refine hno ⟨?_, fun j _ => hpages _⟩
    have := pageCounts_le hmade.count
    unfold kernelHeapStart higherHalfStart isaDmaLength fractalStart alienFractalIndex pageSize
    omega
  · rw [herr] at hok
    cases hok

/-- A call succeeds if the range is large enough. -/
theorem createAllocationSpace_okay {mem : Nat → LargeFrameDescriptor} {start stop : Nat}
    (hsize : ¬Word.sub stop start < 2 * 2 ^ 21)
    (h : (FrameAllocationSpace.construct mem start stop).isSome)
    (hpage : (FrameAllocationSpace.construct mem (start + pageSize) stop).isSome) (m : Machine) :
    ∃ m', m.createAllocationSpace mem start stop = some (.okay, m') ∧ m'.pages = m.pages := by
  obtain ⟨s₁, h₁⟩ := Option.isSome_iff_exists.mp h
  obtain ⟨s₂, h₂⟩ := Option.isSome_iff_exists.mp hpage
  unfold createAllocationSpace
  rw [if_neg hsize, h₁, h₂]
  split
  · split <;> exact ⟨_, rfl, rfl⟩
  · exact ⟨_, rfl, rfl⟩

/-- Some contents of memory. -/
def someMemory (_ : Nat) : LargeFrameDescriptor :=
  { referenceCount := 0, status := .free, nextIndex := 0, subDescriptors := 0, extras := .new
    small := fun _ => .new }

theorem construct_small : ∀ n < 34,
    (FrameAllocationSpace.construct someMemory ((n + 1) * 2 ^ 25)
        ((n + 1) * 2 ^ 25 + 2 ^ 24)).isSome ∧
      (FrameAllocationSpace.construct someMemory ((n + 1) * 2 ^ 25 + pageSize)
        ((n + 1) * 2 ^ 25 + 2 ^ 24)).isSome := by
  decide +kernel

/-- Machines with some small spaces, and nothing mapped yet. -/
theorem exists_creates {n : Nat} (hn : n ≤ 34) :
    ∃ used spaces m, Creates used spaces m ∧ spaces.length = n ∧ (∀ v, m.pages v = none) ∧
      ∀ r ∈ used, r.2 ≤ (n + 1) * 2 ^ 25 := by
  induction n with
  | zero =>
      exact ⟨[], [], ⟨0, 0, 0, fun _ => ⟨0, 0⟩, fun _ => ⟨0, 0, 0, 0, 0, 0⟩, fun _ => 0,
        fun _ => none⟩, Creates.init rfl, rfl, fun _ => rfl,
        fun r hr => absurd hr List.not_mem_nil⟩
  | succ n ih =>
      obtain ⟨used, spaces, m, hcreates, hlen, hpages, hused⟩ := ih (Nat.le_of_succ_le hn)
      obtain ⟨h₁, h₂⟩ := construct_small n hn
      have hsize : ¬Word.sub ((n + 1) * 2 ^ 25 + 2 ^ 24) ((n + 1) * 2 ^ 25) < 2 * 2 ^ 21 := by
        rw [Word.sub_of_le (by omega) (Nat.le_add_right ..)]
        omega
      obtain ⟨m', hcall, hpages'⟩ := createAllocationSpace_okay hsize h₁ h₂ m
      have hfresh : Fresh used ((n + 1) * 2 ^ 25) ((n + 1) * 2 ^ 25 + 2 ^ 24) := by
        constructor
        case pos => omega
        case aligned =>
          unfold pageSize
          omega
        case start_low =>
          unfold lowerHalfEnd
          omega
        case stop_low =>
          unfold lowerHalfEnd
          omega
        case apart => exact fun r hr => Or.inr (hused r hr)
      refine ⟨_, _, m', hcreates.call hfresh hcall, ?_, fun v => ?_, fun r hr => ?_⟩
      · rw [if_pos rfl, List.length_append, hlen]
        rfl
      · rw [hpages']
        exact hpages v
      · rcases List.mem_cons.mp hr with rfl | hr
        · simp only
          omega
        · exact Nat.le_trans (hused r hr) (Nat.mul_le_mul_right _ (Nat.le_succ _))

theorem Creates.relocated_iff_two : ∃ used spaces m m' loc, Creates used spaces m ∧
    spaces.length = 2 ∧ m.bootstrap 3 = .ok (m', loc) ∧ m.Relocated m' spaces := by
  obtain ⟨used, spaces, m, h, hlen, hpages, -⟩ := exists_creates (n := 2) (by decide)
  have hne : spaces ≠ [] := List.ne_nil_of_length_pos (by omega)
  have hfuel : spaces.length < 3 := by omega
  rcases h.relocated_iff hne hfuel with ⟨res, herr⟩ | ⟨m', loc, hok, hiff⟩
  · exact absurd herr (h.bootstrap_ne_error hne hfuel (by omega) hpages res)
  · exact ⟨used, spaces, m, m', loc, h, hlen, hok, hiff.mpr (by omega)⟩

/-- The record of space number 34 is in a page that stays where it is. -/
theorem Creates.identityMap_survives : ¬∀ (used : List (Nat × Nat)) (spaces : List Nat)
    (m m' : Machine) (fuel loc : Nat), Creates used spaces m → spaces ≠ [] →
    m.bootstrap fuel = .ok (m', loc) → m.Relocated m' spaces := by
  intro hall
  obtain ⟨used, spaces, m, h, hlen, hpages, -⟩ := exists_creates (n := 34) (by decide)
  obtain ⟨es, hes, rfl, hmade⟩ := h.made.2.resolve_left fun h => by
    rw [h.1] at hlen
    cases hlen
  rw [List.length_map] at hlen
  have hne : es.map Layout.addr ≠ [] := fun h => hes (List.map_eq_nil_iff.mp h)
  rcases bootstrap_spec 35 hmade hes (by omega) with ⟨⟨res, herr⟩, -⟩ |
    ⟨m', hok, -, -, htouch⟩
  · exact h.bootstrap_ne_error hne (by rw [List.length_map]; omega)
      (by rw [List.length_map]; omega) hpages res herr
  · exact not_relocated hmade htouch (by omega) (hall _ _ _ _ _ _ h hne hok)

end Beelzebub.Memory.Machine
