import Beelzebub.Lib.Linked
import Beelzebub.Memory.RegionList
import Mathlib.Data.List.Nodup

/-!
# One pass over an address space

A pass of `execute` works on the node `p` it has found.  `Vas.Focus` is what it can
rely on: the descriptors are threaded in the order of the tree, and their regions
tile the space.  Each of the nine cases of the pass is shown to splice its nodes
into the list and the tree and to do to the regions what `RegionStep` says.
-/

namespace Beelzebub.Memory

open Utils Tiling
open MemoryAllocationOptions (permanent guardLow guardHigh guardFull)

/-- A descriptor with another forward link. -/
def MemoryRegion.setNext (r : MemoryRegion) (next : Option Ptr) : MemoryRegion :=
  { r with next := next }

/-- A descriptor with another backward link. -/
def MemoryRegion.setPrev (r : MemoryRegion) (prev : Option Ptr) : MemoryRegion :=
  { r with prev := prev }

namespace Vas

/-! ## Reading the state -/

/-- The region behind a pointer. -/
def region (vas : Vas) (p : Ptr) : Region := (vas.mem p).toRegion

/-- The regions in the order of the tree. -/
def regions (vas : Vas) : List Region := vas.tree.inorder.map vas.region

def next (vas : Vas) (p : Ptr) : Option Ptr := (vas.mem p).next

def prev (vas : Vas) (p : Ptr) : Option Ptr := (vas.mem p).prev

/-- The descriptors are doubly linked in the order of the tree. -/
structure Threaded (vas : Vas) : Prop where
  links : Linked.Seg vas.next vas.prev none vas.tree.inorder none
  first : vas.first = vas.tree.inorder.head?

/-! ## Stores -/

theorem mem_modify (vas : Vas) (p : Ptr) (f : MemoryRegion → MemoryRegion) (q : Ptr) :
    (vas.modify p f).mem q = if q = p then f (vas.mem q) else vas.mem q := by
  by_cases h : q = p
  · subst h
    simp [modify]
  · simp [modify, h]

@[simp] theorem tree_modify (vas : Vas) (p : Ptr) (f : MemoryRegion → MemoryRegion) :
    (vas.modify p f).tree = vas.tree := rfl

@[simp] theorem first_modify (vas : Vas) (p : Ptr) (f : MemoryRegion → MemoryRegion) :
    (vas.modify p f).first = vas.first := rfl

@[simp] theorem lastSearched_modify (vas : Vas) (p : Ptr) (f : MemoryRegion → MemoryRegion) :
    (vas.modify p f).lastSearched = vas.lastSearched := rfl

theorem mem_modifyNonNull (vas : Vas) (p : Option Ptr) (f : MemoryRegion → MemoryRegion) (q : Ptr) :
    (vas.modifyNonNull p f).mem q = if p = some q then f (vas.mem q) else vas.mem q := by
  cases p with
  | none => simp [modifyNonNull]
  | some p =>
      rw [modifyNonNull, mem_modify]
      by_cases h : q = p
      · simp [h]
      · simp [h, Ne.symm h]

@[simp] theorem tree_modifyNonNull (vas : Vas) (p : Option Ptr) (f : MemoryRegion → MemoryRegion) :
    (vas.modifyNonNull p f).tree = vas.tree := by
  cases p <;> rfl

@[simp] theorem first_modifyNonNull (vas : Vas) (p : Option Ptr)
    (f : MemoryRegion → MemoryRegion) : (vas.modifyNonNull p f).first = vas.first := by
  cases p <;> rfl

@[simp] theorem lastSearched_modifyNonNull (vas : Vas) (p : Option Ptr)
    (f : MemoryRegion → MemoryRegion) :
    (vas.modifyNonNull p f).lastSearched = vas.lastSearched := by
  cases p <;> rfl

/-- A node is made the successor of a possibly null node, or else the first one. -/
def linkAfter (prev : Option Ptr) (n : Ptr) (vas : Vas) : Vas :=
  match prev with
  | some p => vas.modify p fun p => { p with next := some n }
  | none => { vas with first := some n }

theorem mem_linkAfter (vas : Vas) (prev : Option Ptr) (n q : Ptr) :
    (vas.linkAfter prev n).mem q =
      if prev = some q then (vas.mem q).setNext (some n) else vas.mem q := by
  cases prev with
  | none => simp [linkAfter]
  | some p =>
      rw [linkAfter, mem_modify]
      by_cases h : q = p
      · simp [h, MemoryRegion.setNext]
      · simp [h, Ne.symm h]

@[simp] theorem tree_linkAfter (vas : Vas) (prev : Option Ptr) (n : Ptr) :
    (vas.linkAfter prev n).tree = vas.tree := by
  cases prev <;> rfl

theorem first_linkAfter (vas : Vas) (prev : Option Ptr) (n : Ptr) :
    (vas.linkAfter prev n).first = if prev = none then some n else vas.first := by
  cases prev <;> rfl

@[simp] theorem lastSearched_linkAfter (vas : Vas) (prev : Option Ptr) (n : Ptr) :
    (vas.linkAfter prev n).lastSearched = vas.lastSearched := by
  cases prev <;> rfl

/-- The state with another tree over the same nodes. -/
def setTree (vas : Vas) (t : AvlTree Ptr) : Vas := { vas with tree := t }

@[simp] theorem mem_setTree (vas : Vas) (t : AvlTree Ptr) : (vas.setTree t).mem = vas.mem := rfl

@[simp] theorem tree_setTree (vas : Vas) (t : AvlTree Ptr) : (vas.setTree t).tree = t := rfl

@[simp] theorem first_setTree (vas : Vas) (t : AvlTree Ptr) :
    (vas.setTree t).first = vas.first := rfl

@[simp] theorem lastSearched_setTree (vas : Vas) (t : AvlTree Ptr) :
    (vas.setTree t).lastSearched = vas.lastSearched := rfl

@[simp] theorem region_setTree (vas : Vas) (t : AvlTree Ptr) :
    (vas.setTree t).region = vas.region := rfl

/-! ## Tree operations -/

section Tree

variable {vas : Vas} {A B : List Ptr} {p : Ptr}

theorem findRegion_eq_some {v : Nat} (h : vas.tree.inorder = A ++ p :: B)
    (hA : ∀ x ∈ A, (vas.region x).stop ≤ v)
    (hp : (vas.region p).start ≤ v ∧ v < (vas.region p).stop)
    (hB : ∀ x ∈ B, v < (vas.region x).start ∧ (vas.region x).start < (vas.region x).stop) :
    vas.findRegion v = some p :=
  AvlTree.find_eq_some h (fun x hx => MemoryRange.compareAddress_eq_lt (hA x hx))
    (MemoryRange.compareAddress_eq_eq hp.1 hp.2)
    (fun x hx => MemoryRange.compareAddress_eq_gt (hB x hx).2 (hB x hx).1)

theorem remove_eq {v : Nat} (h : vas.tree.inorder = A ++ p :: B)
    (hA : ∀ x ∈ A, (vas.region x).stop ≤ v)
    (hp : (vas.region p).start ≤ v ∧ v < (vas.region p).stop)
    (hB : ∀ x ∈ B, v < (vas.region x).start ∧ (vas.region x).start < (vas.region x).stop) :
    ∃ t, vas.remove v = (.okay, vas.setTree t) ∧ t.inorder = A ++ B := by
  obtain ⟨h1, h2⟩ := AvlTree.inorder_remove (fun q => (vas.mem q).range.compareAddress v) h
    (fun x hx => MemoryRange.compareAddress_eq_lt (hA x hx))
    (MemoryRange.compareAddress_eq_eq hp.1 hp.2)
    (fun x hx => MemoryRange.compareAddress_eq_gt (hB x hx).2 (hB x hx).1)
  refine ⟨_, ?_, h2⟩
  unfold remove
  split
  next he => rw [he] at h1; cases h1
  next he => rw [he]; rfl

theorem insert_ok {alloc : NodeAllocator} {payload : MemoryRegion} {n : Ptr}
    (h : vas.tree.inorder = A ++ B) (hpl : payload.start ≤ payload.stop)
    (hA : ∀ x ∈ A, (vas.region x).stop ≤ payload.start)
    (hB : ∀ x ∈ B,
      payload.stop ≤ (vas.region x).start ∧ (vas.region x).start < (vas.region x).stop)
    (hn : alloc.allocateNode (A ++ B) = .ok n) :
    ∃ t, vas.insert alloc payload = .ok (n, (vas.setTree t).modify n fun _ => payload) ∧
      t.inorder = A ++ n :: B := by
  obtain ⟨t, h1, h2⟩ := AvlTree.inorder_insert
    (fun q => (vas.mem q).range.compare payload.range) h
    (fun x hx => MemoryRange.compare_eq_lt (hA x hx))
    (fun x hx => MemoryRange.compare_eq_gt (hB x hx).2 hpl (hB x hx).1) n
  refine ⟨t, ?_, h2⟩
  rw [insert, h, hn, h1]
  rfl

theorem insert_error {alloc : NodeAllocator} {payload : MemoryRegion} {e : HandleResult}
    (h : vas.tree.inorder = A ++ B) (hpl : payload.start ≤ payload.stop)
    (hA : ∀ x ∈ A, (vas.region x).stop ≤ payload.start)
    (hB : ∀ x ∈ B,
      payload.stop ≤ (vas.region x).start ∧ (vas.region x).start < (vas.region x).stop)
    (hn : alloc.allocateNode (A ++ B) = .error e) :
    vas.insert alloc payload = .error e := by
  have h1 := AvlTree.insert_error
    (fun q => (vas.mem q).range.compare payload.range) h
    (fun x hx => MemoryRange.compare_eq_lt (hA x hx))
    (fun x hx => MemoryRange.compare_eq_gt (hB x hx).2 hpl (hB x hx).1) e
  rw [insert, h, hn, h1]
  rfl

end Tree

/-! ## Splicing -/

/-- What a change of some nodes into the nodes `ys` leaves: the list is threaded
again, and only the regions of `ys` may differ. -/
structure Spliced (vas vas' : Vas) (A ys B : List Ptr) : Prop where
  threaded : vas'.Threaded
  inorder : vas'.tree.inorder = A ++ (ys ++ B)
  frame : ∀ x ∈ A ++ B, vas'.region x = vas.region x
  lastSearched : vas'.lastSearched = vas.lastSearched

theorem Spliced.regions {vas vas' : Vas} {A ys B : List Ptr} (h : vas.Spliced vas' A ys B) :
    vas'.regions = A.map vas.region ++ (ys.map vas'.region ++ B.map vas.region) := by
  rw [Vas.regions, h.inorder, List.map_append, List.map_append,
    List.map_congr_left fun x hx => h.frame x (List.mem_append_left B hx),
    List.map_congr_left fun x hx => h.frame x (List.mem_append_right A hx)]

/-- Replacing a stretch of nodes.  The neighbours of the stretch keep everything
but their link into it. -/
theorem Threaded.splice {vas vas' : Vas} {A ys B : List Ptr} (h : vas.Threaded) (xs : List Ptr)
    (hin : vas.tree.inorder = A ++ (xs ++ B)) (hnd : vas.tree.inorder.Nodup)
    (hin' : vas'.tree.inorder = A ++ (ys ++ B)) (hys : ys ≠ [])
    (hA : ∀ x ∈ A,
      vas'.mem x = if A.getLast? = some x then (vas.mem x).setNext ys.head? else vas.mem x)
    (hB : ∀ x ∈ B,
      vas'.mem x = if B.head? = some x then (vas.mem x).setPrev ys.getLast? else vas.mem x)
    (hfirst : vas'.first = if A = [] then ys.head? else vas.first)
    (hlast : vas'.lastSearched = vas.lastSearched)
    (hlinks : Linked.Seg vas'.next vas'.prev A.getLast? ys B.head?) :
    vas.Spliced vas' A ys B := by
  have hseg := h.links
  rw [hin] at hseg hnd
  refine ⟨⟨?_, ?_⟩, hin', ?_, hlast⟩
  · rw [hin']
    refine Linked.seg_splice hseg hnd hys ?_ ?_ ?_ ?_ ?_ ?_ ?_
    · intro x hx hne
      rw [next, next, hA x hx, if_neg hne]
    · intro x hx
      rw [next, hA x (List.mem_of_getLast? hx), if_pos (Option.mem_def.mp hx)]
      rfl
    · intro x hx
      rw [prev, prev, hA x hx]
      split <;> rfl
    · intro x hx
      rw [next, next, hB x hx]
      split <;> rfl
    · intro x hx hne
      rw [prev, prev, hB x hx, if_neg hne]
    · intro x hx
      rw [prev, hB x (List.mem_of_head? hx), if_pos (Option.mem_def.mp hx)]
      rfl
    · simpa using hlinks
  · rw [hfirst, hin', h.first, hin]
    cases A with
    | nil =>
        obtain ⟨y, ys, rfl⟩ := List.exists_cons_of_ne_nil hys
        rfl
    | cons a A => simp
  · intro x hx
    rw [region, region]
    rcases List.mem_append.mp hx with hx | hx
    · rw [hA x hx]
      split <;> rfl
    · rw [hB x hx]
      split <;> rfl

/-- Nodes on the left that already point to the stretch. -/
theorem Threaded.left_kept {vas : Vas} {mem' : Ptr → MemoryRegion} {A ys : List Ptr} {y : Ptr}
    (h : vas.Threaded) (hin : vas.tree.inorder = A ++ y :: ys)
    (hmem : ∀ x ∈ A, mem' x = vas.mem x) :
    ∀ x ∈ A, mem' x = if A.getLast? = some x then (vas.mem x).setNext (some y) else vas.mem x := by
  intro x hx
  rw [hmem x hx]
  split
  next hlast =>
    obtain ⟨A', rfl⟩ := List.getLast?_eq_some_iff.mp hlast
    have hseg := h.links
    rw [hin, List.append_assoc] at hseg
    have hnext : vas.next x = some y := (Linked.seg_middle hseg).2
    rw [← hnext]
    rfl
  next => rfl

/-- Nodes on the right that already point back to the stretch. -/
theorem Threaded.right_kept {vas : Vas} {mem' : Ptr → MemoryRegion} {B : List Ptr} {y : Ptr}
    (h : vas.Threaded) (ys : List Ptr) (hin : vas.tree.inorder = (ys ++ [y]) ++ B)
    (hmem : ∀ x ∈ B, mem' x = vas.mem x) :
    ∀ x ∈ B, mem' x = if B.head? = some x then (vas.mem x).setPrev (some y) else vas.mem x := by
  intro x hx
  rw [hmem x hx]
  split
  next hhead =>
    obtain ⟨B', rfl⟩ := List.head?_eq_some_iff.mp hhead
    have hseg := h.links
    rw [hin] at hseg
    have hprev : vas.prev x = some y := by simpa using (Linked.seg_middle hseg).1
    rw [← hprev]
    rfl
  next => rfl

/-- A list whose first node is kept. -/
theorem Threaded.first_kept {vas : Vas} {A ys : List Ptr} {y : Ptr} (h : vas.Threaded)
    (hin : vas.tree.inorder = A ++ y :: ys) :
    vas.first = if A = [] then some y else vas.first := by
  split
  next hA => rw [h.first, hin, hA, List.nil_append, List.head?_cons]
  next => rfl

/-! ## The node in focus -/

/-- The state a pass starts from, with the node `p` it has found. -/
structure Focus (vas : Vas) (lo hi : Nat) (A : List Ptr) (p : Ptr) (B : List Ptr) : Prop where
  threaded : vas.Threaded
  tiles : Tiles Region.start Region.stop lo vas.regions hi
  inorder : vas.tree.inorder = A ++ p :: B

namespace Focus

variable {vas : Vas} {lo hi : Nat} {A B : List Ptr} {p : Ptr}

theorem regions (f : vas.Focus lo hi A p B) :
    vas.regions = A.map vas.region ++ vas.region p :: B.map vas.region := by
  rw [Vas.regions, f.inorder, List.map_append, List.map_cons]

theorem split (f : vas.Focus lo hi A p B) :
    Tiles Region.start Region.stop lo (A.map vas.region) (vas.region p).start ∧
      (vas.region p).start < (vas.region p).stop ∧
      Tiles Region.start Region.stop (vas.region p).stop (B.map vas.region) hi := by
  have := f.tiles
  rw [f.regions] at this
  exact this.split

theorem before (f : vas.Focus lo hi A p B) :
    ∀ x ∈ A, (vas.region x).stop ≤ (vas.region p).start := by
  intro x hx
  exact (f.split.1.bounds (List.mem_map_of_mem hx)).2.2

theorem nonempty (f : vas.Focus lo hi A p B) : (vas.region p).start < (vas.region p).stop :=
  f.split.2.1

theorem after (f : vas.Focus lo hi A p B) :
    ∀ x ∈ B, (vas.region p).stop ≤ (vas.region x).start ∧
      (vas.region x).start < (vas.region x).stop := by
  intro x hx
  have := f.split.2.2.bounds (List.mem_map_of_mem hx)
  exact ⟨this.1, this.2.1⟩

theorem nodup (f : vas.Focus lo hi A p B) : vas.tree.inorder.Nodup :=
  List.Nodup.of_map vas.region f.tiles.nodup

theorem notMem_left (f : vas.Focus lo hi A p B) : p ∉ A := by
  have := f.nodup
  rw [f.inorder] at this
  intro hp
  exact (List.nodup_append.mp this).2.2 p hp p (by simp) rfl

theorem notMem_right (f : vas.Focus lo hi A p B) : p ∉ B := by
  have := f.nodup
  rw [f.inorder] at this
  exact (List.nodup_cons.mp (List.nodup_append.mp this).2.1).1

theorem ne_of_mem_left (f : vas.Focus lo hi A p B) {x : Ptr} (hx : x ∈ A) : x ≠ p := by
  rintro rfl
  exact f.notMem_left hx

theorem ne_of_mem_right (f : vas.Focus lo hi A p B) {x : Ptr} (hx : x ∈ B) : x ≠ p := by
  rintro rfl
  exact f.notMem_right hx

theorem disjoint (f : vas.Focus lo hi A p B) {x : Ptr} (hA : x ∈ A) : x ∉ B := by
  have := f.nodup
  rw [f.inorder] at this
  intro hB
  exact (List.nodup_append.mp this).2.2 x hA x (by simp [hB]) rfl

theorem prev_eq (f : vas.Focus lo hi A p B) : (vas.mem p).prev = A.getLast? := by
  have := f.threaded.links
  rw [f.inorder] at this
  exact (Linked.seg_middle this).1.trans (by simp)

theorem next_eq (f : vas.Focus lo hi A p B) : (vas.mem p).next = B.head? := by
  have := f.threaded.links
  rw [f.inorder] at this
  exact (Linked.seg_middle this).2.trans (by simp)

/-- The focus on the node to the right. -/
theorem right {b : Ptr} (f : vas.Focus lo hi A p (b :: B)) : vas.Focus lo hi (A ++ [p]) b B :=
  ⟨f.threaded, f.tiles, by rw [f.inorder]; simp⟩

/-- The focus on the node to the left. -/
theorem left {a : Ptr} (f : vas.Focus lo hi (A ++ [a]) p B) : vas.Focus lo hi A a (p :: B) :=
  ⟨f.threaded, f.tiles, by rw [f.inorder]; simp⟩

end Focus

theorem head?_ne_some {B : List Ptr} {x : Ptr} (h : x ∉ B) : B.head? ≠ some x :=
  fun hx => h (List.mem_of_head? hx)

theorem getLast?_ne_some {A : List Ptr} {x : Ptr} (h : x ∉ A) : A.getLast? ≠ some x :=
  fun hx => h (List.mem_of_getLast? hx)

/-! ## The operation spans an entire descriptor -/

section Whole

variable {vas : Vas} {lo hi : Nat} {A B : List Ptr} {p a b : Ptr} {op : OperationParameters}
  {dcr : DescriptorCheckResults}

/-- The node `a` is extended over the nodes `xs` behind it, which are dropped. -/
theorem Focus.absorb (xs : List Ptr) {t : AvlTree Ptr} (f : vas.Focus lo hi A a (xs ++ B))
    (ht : t.inorder = A ++ a :: B) (stop : Nat) :
    ∃ vas', (((vas.setTree t).modify a fun r => { r with range.stop := stop }).modify a
          fun r => { r with next := B.head? }).modifyNonNull B.head?
          (fun n => { n with prev := some a }) = vas' ∧
      vas.Spliced vas' A [a] B ∧ vas'.region a = (vas.region a).setStop stop := by
  have haB : a ∉ B := fun h => f.notMem_right (by simp [h])
  refine ⟨_, rfl, ?_, ?_⟩
  · refine f.threaded.splice (a :: xs) f.inorder f.nodup ?_ (by simp) ?_ ?_ ?_ (by simp) ?_
    · rw [tree_modifyNonNull, tree_modify, tree_modify, tree_setTree, ht]
      rfl
    · refine f.threaded.left_kept f.inorder fun x hx => ?_
      have hxa : x ≠ a := f.ne_of_mem_left hx
      have hxB : x ∉ B := fun h => f.disjoint hx (by simp [h])
      simp [mem_modifyNonNull, mem_modify, hxa, head?_ne_some hxB]
    · intro x hx
      have hxa : x ≠ a := fun h => haB (h ▸ hx)
      simp only [mem_modifyNonNull, mem_modify, hxa, if_false]
      rfl
    · simpa using f.threaded.first_kept f.inorder
    · simp [Vas.next, Vas.prev, mem_modifyNonNull, mem_modify, head?_ne_some haB, f.prev_eq]
  · simp only [region, mem_modifyNonNull, mem_modify, head?_ne_some haB, if_true, if_false]
    rfl

/-- Removing the node in focus by an address in its region. -/
theorem Focus.remove_eq {v : Nat} (f : vas.Focus lo hi A p B)
    (hp : (vas.region p).start ≤ v ∧ v < (vas.region p).stop) :
    ∃ t, vas.remove v = (.okay, vas.setTree t) ∧ t.inorder = A ++ B :=
  Vas.remove_eq f.inorder (fun x hx => (f.before x hx).trans hp.1) hp
    (fun x hx => ⟨Nat.lt_of_lt_of_le hp.2 (f.after x hx).1, (f.after x hx).2⟩)

theorem executeWhole_mergeBoth (f : vas.Focus lo hi (A ++ [a]) p (b :: B)) (hhi : hi < 2 ^ 64)
    (hp : (vas.region p).start ≤ op.address ∧ op.address < (vas.region p).stop)
    (hl : dcr.leftMergeable = true) (hr : dcr.rightMergeable = true) :
    ∃ vas', vas.executeWhole op p dcr = (.okay, vas') ∧ vas.Spliced vas' A [a] B ∧
      vas'.region a = (vas.region a).setStop (vas.region b).stop := by
  have hnext : (vas.mem p).next = some b := f.next_eq
  have hprev : (vas.mem p).prev = some a := by rw [f.prev_eq]; simp
  have hbnext : (vas.mem b).next = B.head? := f.right.next_eq
  have hbne := f.right.nonempty
  have hbhi : (vas.region b).stop ≤ hi := f.right.split.2.2.le
  have hsub : Word.sub (vas.mem b).range.stop 1 = (vas.region b).stop - 1 :=
    Word.sub_of_le (Nat.lt_of_le_of_lt hbhi hhi) (Nat.one_le_of_lt hbne)
  obtain ⟨t1, h1, hin1⟩ := f.right.remove_eq (v := (vas.region b).stop - 1) (by omega)
  -- the second removal sees the old regions through the new tree
  have hin1' : (vas.setTree t1).tree.inorder = (A ++ [a]) ++ p :: B := by
    rw [tree_setTree, hin1]
    simp
  obtain ⟨t2, h2, hin2⟩ := Vas.remove_eq (v := op.address) hin1'
    (fun x hx => (f.before x hx).trans hp.1) hp
    (fun x hx => by
      have := f.after x (by simp [hx])
      exact ⟨Nat.lt_of_lt_of_le hp.2 this.1, this.2⟩)
  obtain ⟨vas', hv, hs, hreg⟩ := Focus.absorb [p, b] (t := t2) f.left (by rw [hin2]; simp)
    (vas.region b).stop
  refine ⟨vas', ?_, hs, hreg⟩
  simp only [executeWhole, hl, hr, if_true, deref, hnext, hprev, Option.getD_some,
    hbnext, hsub, h1, h2, ne_eq, not_true_eq_false, if_false]
  rw [← hv]
  rfl

theorem executeWhole_mergeLeft (f : vas.Focus lo hi (A ++ [a]) p B)
    (hp : (vas.region p).start ≤ op.address ∧ op.address < (vas.region p).stop)
    (hl : dcr.leftMergeable = true) (hr : dcr.rightMergeable = false) :
    ∃ vas', vas.executeWhole op p dcr = (.okay, vas') ∧ vas.Spliced vas' A [a] B ∧
      vas'.region a = (vas.region a).setStop (vas.region p).stop := by
  have hprev : (vas.mem p).prev = some a := by rw [f.prev_eq]; simp
  obtain ⟨t, h1, hin⟩ := f.remove_eq hp
  obtain ⟨vas', hv, hs, hreg⟩ := Focus.absorb [p] (t := t) f.left (by rw [hin]; simp)
    (vas.region p).stop
  refine ⟨vas', ?_, hs, hreg⟩
  simp only [executeWhole, hl, hr, if_true, f.next_eq, hprev, Option.getD_some, h1, ne_eq,
    not_true_eq_false, if_false, Bool.false_eq_true]
  rw [← hv]
  rfl

theorem executeWhole_mergeRight (f : vas.Focus lo hi A p (b :: B))
    (hp : (vas.region p).start ≤ op.address ∧ op.address < (vas.region p).stop)
    (hl : dcr.leftMergeable = false) (hr : dcr.rightMergeable = true) :
    ∃ vas', vas.executeWhole op p dcr = (.okay, vas') ∧ vas.Spliced vas' A [b] B ∧
      vas'.region b = (vas.region b).setStart (vas.region p).start := by
  have hnext : (vas.mem p).next = some b := f.next_eq
  obtain ⟨t, h1, hin⟩ := f.remove_eq hp
  have hbA : b ∉ A := fun h => f.disjoint h (by simp)
  refine ⟨(((vas.setTree t).modify b
    fun n => { n with range.start := (vas.region p).start }).modify b
    fun n => { n with prev := A.getLast? }).linkAfter A.getLast? b, ?_, ?_, ?_⟩
  · simp only [executeWhole, hl, hr, if_true, f.prev_eq, hnext, Option.getD_some, h1, ne_eq,
      not_true_eq_false, if_false, Bool.false_eq_true]
    cases A.getLast? <;> rfl
  · refine f.threaded.splice [p, b] f.inorder f.nodup (by simp [hin]) (by simp) ?_ ?_ ?_
      (by simp) ?_
    · intro x hx
      have hxb : x ≠ b := fun h => hbA (h ▸ hx)
      simp [mem_linkAfter, mem_modify, hxb]
    · refine f.threaded.right_kept (A ++ [p]) (y := b) (by rw [f.inorder]; simp)
        fun x hx => ?_
      have hxb : x ≠ b := f.right.ne_of_mem_right hx
      have hxA : x ∉ A := fun h => f.disjoint h (by simp [hx])
      simp [mem_linkAfter, mem_modify, hxb, getLast?_ne_some hxA]
    · simp [first_linkAfter]
    · simp [Vas.next, Vas.prev, mem_linkAfter, mem_modify, getLast?_ne_some hbA, f.right.next_eq]
  · simp only [region, mem_linkAfter, mem_modify, getLast?_ne_some hbA, if_true, if_false]
    rfl

theorem executeWhole_repurpose (op : OperationParameters) (f : vas.Focus lo hi A p B)
    (hl : dcr.leftMergeable = false)
    (hr : dcr.rightMergeable = false) :
    ∃ vas', vas.executeWhole op p dcr = (.okay, vas') ∧ vas.Spliced vas' A [p] B ∧
      vas'.region p = op.operation.repurpose (vas.region p) := by
  refine ⟨_, by
    simp only [executeWhole, hl, hr, if_false, Bool.false_eq_true]
    rfl, ?_, ?_⟩
  · refine f.threaded.splice [p] f.inorder f.nodup f.inorder (by simp) ?_ ?_ ?_ rfl ?_
    · refine f.threaded.left_kept f.inorder fun x hx => ?_
      have hxp : x ≠ p := f.ne_of_mem_left hx
      simp [mem_modify, hxp]
    · refine f.threaded.right_kept A (y := p) (by rw [f.inorder]; simp) fun x hx => ?_
      have hxp : x ≠ p := f.ne_of_mem_right hx
      simp [mem_modify, hxp]
    · simpa using f.threaded.first_kept f.inorder
    · simp [Vas.next, Vas.prev, mem_modify, f.next_eq, f.prev_eq]
  · simp [region, mem_modify]

end Whole

/-! ## The operation starts with the descriptor -/

section Start

variable {vas : Vas} {lo hi e : Nat} {A B : List Ptr} {p a n : Ptr} {op : OperationParameters}
  {dcr : DescriptorCheckResults} {alloc : NodeAllocator}

/-- The descriptor is shrunk towards its end. -/
def cutStart (vas : Vas) (p : Ptr) (e : Nat) : Vas :=
  vas.modify p fun r => { r with range.start := e, type := r.type &&& ~~~guardLow }

theorem region_cutStart_ne {q : Ptr} (h : q ≠ p) : (vas.cutStart p e).region q = vas.region q := by
  rw [region, cutStart, mem_modify, if_neg h, region]

theorem region_cutStart :
    (vas.cutStart p e).region p = ((vas.region p).setStart e).clear guardLow := by
  rw [region, cutStart, mem_modify, if_pos rfl]
  rfl

theorem executeStart_merge (alloc : NodeAllocator) (f : vas.Focus lo hi (A ++ [a]) p B)
    (he : Word.add op.address op.size = e) (hl : dcr.leftMergeable = true) :
    ∃ vas', vas.executeStart alloc op p dcr = (.okay, vas') ∧ vas.Spliced vas' A [a, p] B ∧
      vas'.region a = (vas.region a).setStop e ∧
      vas'.region p = ((vas.region p).setStart e).clear guardLow := by
  have hap : a ≠ p := f.ne_of_mem_left (by simp)
  have hprev : (vas.mem p).prev = some a := by rw [f.prev_eq]; simp
  refine ⟨(vas.cutStart p e).modify a fun r => { r with range.stop := e }, ?_, ?_, ?_, ?_⟩
  · simp [executeStart, cutStart, hl, mem_modify, hprev, he]
  · refine f.threaded.splice [a, p] f.left.inorder f.nodup f.left.inorder (by simp)
      ?_ ?_ ?_ rfl ?_
    · refine f.threaded.left_kept f.left.inorder fun x hx => ?_
      have hxa : x ≠ a := f.left.ne_of_mem_left hx
      have hxp : x ≠ p := f.ne_of_mem_left (by simp [hx])
      simp [cutStart, mem_modify, hxa, hxp]
    · refine f.threaded.right_kept (A ++ [a]) (y := p) (by rw [f.inorder]; simp)
        fun x hx => ?_
      have hxa : x ≠ a := f.left.ne_of_mem_right (by simp [hx])
      have hxp : x ≠ p := f.ne_of_mem_right hx
      simp [cutStart, mem_modify, hxa, hxp]
    · simpa [cutStart] using f.threaded.first_kept f.left.inorder
    · simp [Vas.next, Vas.prev, cutStart, mem_modify, hap, hap.symm, f.left.prev_eq,
        f.left.next_eq, f.next_eq, hprev]
  · simp [region, cutStart, mem_modify, hap, Region.setStop]
  · rw [region, mem_modify, if_neg hap.symm, ← region_cutStart]
    rfl

theorem cutStart_before (f : vas.Focus lo hi A p B) :
    ∀ x ∈ A, ((vas.cutStart p e).region x).stop ≤ (vas.region p).start := by
  intro x hx
  rw [region_cutStart_ne (f.ne_of_mem_left hx)]
  exact f.before x hx

theorem cutStart_after (f : vas.Focus lo hi A p B) (he : e < (vas.region p).stop) :
    ∀ x ∈ p :: B, e ≤ ((vas.cutStart p e).region x).start ∧
      ((vas.cutStart p e).region x).start < ((vas.cutStart p e).region x).stop := by
  intro x hx
  rcases List.mem_cons.mp hx with rfl | hx
  · rw [region_cutStart]
    exact ⟨Nat.le_refl e, he⟩
  · rw [region_cutStart_ne (f.ne_of_mem_right hx)]
    have := f.after x hx
    exact ⟨by omega, this.2⟩

/-- The nodes around a descriptor that was cut at `e` leave room for a new one. -/
theorem insert_cutStart (f : vas.Focus lo hi A p B) (payload : MemoryRegion)
    (hstart : payload.start = (vas.region p).start) (hstop : payload.stop = e)
    (hs : (vas.region p).start ≤ e) (he : e < (vas.region p).stop)
    (hn : alloc.allocateNode vas.tree.inorder = .ok n) :
    ∃ t, (vas.cutStart p e).insert alloc payload =
        .ok (n, ((vas.cutStart p e).setTree t).modify n fun _ => payload) ∧
      t.inorder = A ++ n :: p :: B := by
  rw [f.inorder] at hn
  exact Vas.insert_ok f.inorder (by omega) (by rw [hstart]; exact cutStart_before f)
    (by rw [hstop]; exact cutStart_after f he) hn

theorem executeStart_error {res : HandleResult} (f : vas.Focus lo hi A p B)
    (he : Word.add op.address op.size = e) (hs : (vas.region p).start ≤ e)
    (hlt : e < (vas.region p).stop) (hl : dcr.leftMergeable = false)
    (hn : alloc.allocateNode vas.tree.inorder = .error res) :
    vas.executeStart alloc op p dcr = (res, vas.cutStart p e) := by
  have h1 : (vas.cutStart p e).insert alloc
      { op.operation.spawned (vas.region p).start e with next := none, prev := none } =
        .error res := by
    rw [f.inorder] at hn
    refine Vas.insert_error f.inorder ?_ ?_ ?_ hn
    · rw [Operation.start_spawned, Operation.stop_spawned]
      exact hs
    · rw [Operation.start_spawned]
      exact cutStart_before f
    · rw [Operation.stop_spawned]
      exact cutStart_after f hlt
  unfold cutStart region Region.start at h1
  simp only [executeStart, hl, if_false, Bool.false_eq_true, spawn, he, h1]
  rfl

theorem executeStart_spawn (f : vas.Focus lo hi A p B)
    (he : Word.add op.address op.size = e) (hs : (vas.region p).start ≤ e)
    (hlt : e < (vas.region p).stop) (hl : dcr.leftMergeable = false)
    (hn : alloc.allocateNode vas.tree.inorder = .ok n) :
    ∃ vas', vas.executeStart alloc op p dcr = (.okay, vas') ∧ vas.Spliced vas' A [n, p] B ∧
      vas'.region n = op.operation.spawned (vas.region p).start e ∧
      vas'.region p = ((vas.region p).setStart e).clear guardLow := by
  have hfresh := alloc.fresh _ _ hn
  rw [f.inorder] at hfresh
  have hnp : n ≠ p := fun h => hfresh (by simp [h])
  have hnA : n ∉ A := fun h => hfresh (by simp [h])
  have hnB : n ∉ B := fun h => hfresh (by simp [h])
  have hpA := f.notMem_left
  obtain ⟨t, h1, hin⟩ := insert_cutStart f
    ({ op.operation.spawned (vas.region p).start e with next := none, prev := none })
    (Operation.start_spawned _ _ _) (Operation.stop_spawned _ _ _) hs hlt hn
  have hprev : ((((vas.cutStart p e).setTree t).modify n fun _ =>
      { op.operation.spawned (vas.region p).start e with next := none, prev := none }).mem p).prev =
      A.getLast? := by
    rw [mem_modify, if_neg hnp.symm, mem_setTree, cutStart, mem_modify, if_pos rfl]
    exact f.prev_eq
  refine ⟨((((((vas.cutStart p e).setTree t).modify n fun _ =>
    { op.operation.spawned (vas.region p).start e with next := none, prev := none }).modify n
    fun m => { m with next := some p }).modify n fun m => { m with prev := A.getLast? }).linkAfter
    A.getLast? n).modify p fun r => { r with prev := some n }, ?_, ?_, ?_, ?_⟩
  · unfold cutStart at h1 hprev
    simp only [executeStart, hl, if_false, Bool.false_eq_true, spawn, he]
    unfold region Region.start at h1 hprev
    simp only [h1, hprev]
    cases A.getLast? <;> rfl
  · refine f.threaded.splice [p] f.inorder f.nodup (by simp [hin]) (by simp) ?_ ?_ ?_
      (by simp [cutStart]) ?_
    · intro x hx
      have hxn : x ≠ n := fun h => hnA (h ▸ hx)
      have hxp : x ≠ p := f.ne_of_mem_left hx
      simp [mem_linkAfter, mem_modify, cutStart, hxn, hxp]
    · refine f.threaded.right_kept A (y := p) (by rw [f.inorder]; simp) fun x hx => ?_
      have hxn : x ≠ n := fun h => hnB (h ▸ hx)
      have hxp : x ≠ p := f.ne_of_mem_right hx
      have hxA : x ∉ A := fun h => f.disjoint h hx
      simp [mem_linkAfter, mem_modify, cutStart, hxn, hxp, getLast?_ne_some hxA]
    · simp [first_linkAfter, cutStart]
    · simp [Vas.next, Vas.prev, mem_linkAfter, mem_modify, cutStart, hnp, hnp.symm,
        getLast?_ne_some hnA, getLast?_ne_some hpA, f.next_eq]
  · simp [region, mem_linkAfter, mem_modify, hnp, getLast?_ne_some hnA]
  · rw [← region_cutStart]
    simp [region, mem_linkAfter, mem_modify, hnp.symm, getLast?_ne_some hpA]

end Start

/-! ## The operation ends with the descriptor -/

section End

variable {vas : Vas} {lo hi v : Nat} {A B : List Ptr} {p b n : Ptr} {op : OperationParameters}
  {dcr : DescriptorCheckResults} {alloc : NodeAllocator}

/-- The descriptor is shrunk towards its start. -/
def cutEnd (vas : Vas) (p : Ptr) (v : Nat) : Vas :=
  vas.modify p fun r => { r with range.stop := v, type := r.type &&& ~~~guardHigh }

theorem region_cutEnd_ne {q : Ptr} (h : q ≠ p) : (vas.cutEnd p v).region q = vas.region q := by
  rw [region, cutEnd, mem_modify, if_neg h, region]

theorem region_cutEnd :
    (vas.cutEnd p v).region p = ((vas.region p).setStop v).clear guardHigh := by
  rw [region, cutEnd, mem_modify, if_pos rfl]
  rfl

theorem executeEnd_merge (alloc : NodeAllocator) (f : vas.Focus lo hi A p (b :: B))
    (hr : dcr.rightMergeable = true) :
    ∃ vas', vas.executeEnd alloc op p dcr = (.okay, vas') ∧ vas.Spliced vas' A [p, b] B ∧
      vas'.region p = ((vas.region p).setStop op.address).clear guardHigh ∧
      vas'.region b = (vas.region b).setStart op.address := by
  have hbp : b ≠ p := f.ne_of_mem_right (by simp)
  have hnext : (vas.mem p).next = some b := f.next_eq
  refine ⟨(vas.cutEnd p op.address).modify b fun n => { n with range.start := op.address },
    ?_, ?_, ?_, ?_⟩
  · simp [executeEnd, cutEnd, hr, mem_modify, hnext]
  · refine f.threaded.splice [p, b] f.inorder f.nodup f.inorder (by simp) ?_ ?_ ?_ rfl ?_
    · refine f.threaded.left_kept f.inorder fun x hx => ?_
      have hxp : x ≠ p := f.ne_of_mem_left hx
      have hxb : x ≠ b := f.right.ne_of_mem_left (by simp [hx])
      simp [cutEnd, mem_modify, hxp, hxb]
    · refine f.threaded.right_kept (A ++ [p]) (y := b) (by rw [f.inorder]; simp)
        fun x hx => ?_
      have hxp : x ≠ p := f.ne_of_mem_right (by simp [hx])
      have hxb : x ≠ b := f.right.ne_of_mem_right hx
      simp [cutEnd, mem_modify, hxp, hxb]
    · simpa [cutEnd] using f.threaded.first_kept f.inorder
    · have hbprev : (vas.mem b).prev = some p := by rw [f.right.prev_eq]; simp
      simp [Vas.next, Vas.prev, cutEnd, mem_modify, hbp, hbp.symm, f.prev_eq, hnext,
        f.right.next_eq, hbprev]
  · rw [region, mem_modify, if_neg hbp.symm, ← region_cutEnd]
    rfl
  · simp [region, cutEnd, mem_modify, hbp, Region.setStart]

theorem inorder_cutEnd (f : vas.Focus lo hi A p B) :
    (vas.cutEnd p v).tree.inorder = (A ++ [p]) ++ B := by
  rw [cutEnd, tree_modify, f.inorder]
  simp

theorem cutEnd_before (f : vas.Focus lo hi A p B) (hv : (vas.region p).start < v) :
    ∀ x ∈ A ++ [p], ((vas.cutEnd p v).region x).stop ≤ v := by
  intro x hx
  rcases List.mem_append.mp hx with hx | hx
  · rw [region_cutEnd_ne (f.ne_of_mem_left hx)]
    have := f.before x hx
    omega
  · obtain rfl := List.mem_singleton.mp hx
    rw [region_cutEnd]
    exact Nat.le_refl v

theorem cutEnd_after (f : vas.Focus lo hi A p B) :
    ∀ x ∈ B, (vas.region p).stop ≤ ((vas.cutEnd p v).region x).start ∧
      ((vas.cutEnd p v).region x).start < ((vas.cutEnd p v).region x).stop := by
  intro x hx
  rw [region_cutEnd_ne (f.ne_of_mem_right hx)]
  exact f.after x hx

/-- The nodes around a descriptor that was cut at `v` leave room for a new one. -/
theorem insert_cutEnd (f : vas.Focus lo hi A p B) (payload : MemoryRegion)
    (hstart : v ≤ payload.start) (hpl : payload.start ≤ payload.stop)
    (hstop : payload.stop ≤ (vas.region p).stop) (hv : (vas.region p).start < v)
    (hn : alloc.allocateNode vas.tree.inorder = .ok n) :
    ∃ t, (vas.cutEnd p v).insert alloc payload =
        .ok (n, ((vas.cutEnd p v).setTree t).modify n fun _ => payload) ∧
      t.inorder = (A ++ [p]) ++ n :: B :=
  Vas.insert_ok (inorder_cutEnd f) hpl
    (fun x hx => (cutEnd_before f hv x hx).trans hstart)
    (fun x hx => ⟨hstop.trans (cutEnd_after f x hx).1, (cutEnd_after f x hx).2⟩)
    (by rw [← hn, f.inorder]; simp)

theorem insert_cutEnd_error {res : HandleResult} (f : vas.Focus lo hi A p B)
    (payload : MemoryRegion) (hstart : v ≤ payload.start) (hpl : payload.start ≤ payload.stop)
    (hstop : payload.stop ≤ (vas.region p).stop) (hv : (vas.region p).start < v)
    (hn : alloc.allocateNode vas.tree.inorder = .error res) :
    (vas.cutEnd p v).insert alloc payload = .error res :=
  Vas.insert_error (inorder_cutEnd f) hpl
    (fun x hx => (cutEnd_before f hv x hx).trans hstart)
    (fun x hx => ⟨hstop.trans (cutEnd_after f x hx).1, (cutEnd_after f x hx).2⟩)
    (by rw [← hn, f.inorder]; simp)

theorem executeEnd_error {res : HandleResult} (f : vas.Focus lo hi A p B)
    (hv : (vas.region p).start < op.address) (hlt : op.address < (vas.region p).stop)
    (hr : dcr.rightMergeable = false)
    (hn : alloc.allocateNode vas.tree.inorder = .error res) :
    vas.executeEnd alloc op p dcr = (res, vas.cutEnd p op.address) := by
  have h1 := insert_cutEnd_error (v := op.address) f
    ({ op.operation.spawned op.address (vas.region p).stop with next := none, prev := none })
    (Nat.le_of_eq (Operation.start_spawned _ _ _).symm)
    (by rw [Operation.start_spawned, Operation.stop_spawned]; exact Nat.le_of_lt hlt)
    (Nat.le_of_eq (Operation.stop_spawned _ _ _)) hv hn
  unfold cutEnd region Region.stop at h1
  simp only [executeEnd, hr, if_false, Bool.false_eq_true, spawn, h1]
  rfl

theorem executeEnd_spawn (f : vas.Focus lo hi A p B) (hv : (vas.region p).start < op.address)
    (hlt : op.address < (vas.region p).stop) (hr : dcr.rightMergeable = false)
    (hn : alloc.allocateNode vas.tree.inorder = .ok n) :
    ∃ vas', vas.executeEnd alloc op p dcr = (.okay, vas') ∧ vas.Spliced vas' A [p, n] B ∧
      vas'.region p = ((vas.region p).setStop op.address).clear guardHigh ∧
      vas'.region n = op.operation.spawned op.address (vas.region p).stop := by
  have hfresh := alloc.fresh _ _ hn
  rw [f.inorder] at hfresh
  have hnp : n ≠ p := fun h => hfresh (by simp [h])
  have hnA : n ∉ A := fun h => hfresh (by simp [h])
  have hnB : n ∉ B := fun h => hfresh (by simp [h])
  have hpB := f.notMem_right
  obtain ⟨t, h1, hin⟩ := insert_cutEnd (v := op.address) f
    ({ op.operation.spawned op.address (vas.region p).stop with next := none, prev := none })
    (Nat.le_of_eq (Operation.start_spawned _ _ _).symm)
    (by rw [Operation.start_spawned, Operation.stop_spawned]; exact Nat.le_of_lt hlt)
    (Nat.le_of_eq (Operation.stop_spawned _ _ _)) hv hn
  have hnext : ((((vas.cutEnd p op.address).setTree t).modify n fun _ =>
      { op.operation.spawned op.address (vas.region p).stop with
        next := none, prev := none }).mem p).next = B.head? := by
    rw [mem_modify, if_neg hnp.symm, mem_setTree, cutEnd, mem_modify, if_pos rfl]
    exact f.next_eq
  refine ⟨((((((vas.cutEnd p op.address).setTree t).modify n fun _ =>
    { op.operation.spawned op.address (vas.region p).stop with next := none, prev := none }).modify n
    fun m => { m with prev := some p }).modify n fun m => { m with next := B.head? }).modifyNonNull
    B.head? fun m => { m with prev := some n }).modify p fun r => { r with next := some n },
    ?_, ?_, ?_, ?_⟩
  · unfold cutEnd at h1 hnext
    simp only [executeEnd, hr, if_false, Bool.false_eq_true, spawn]
    unfold region Region.stop at h1 hnext
    simp only [h1, hnext]
    rfl
  · refine f.threaded.splice [p] f.inorder f.nodup (by simp [hin]) (by simp) ?_ ?_ ?_
      (by simp [cutEnd]) ?_
    · refine f.threaded.left_kept f.inorder fun x hx => ?_
      have hxn : x ≠ n := fun h => hnA (h ▸ hx)
      have hxp : x ≠ p := f.ne_of_mem_left hx
      have hxB : x ∉ B := f.disjoint hx
      simp [mem_modifyNonNull, mem_modify, cutEnd, hxn, hxp, head?_ne_some hxB]
    · intro x hx
      have hxn : x ≠ n := fun h => hnB (h ▸ hx)
      have hxp : x ≠ p := f.ne_of_mem_right hx
      simp only [mem_modifyNonNull, mem_modify, cutEnd, hxn, hxp, mem_setTree, if_false]
      rfl
    · simpa [cutEnd] using f.threaded.first_kept f.inorder
    · simp [Vas.next, Vas.prev, mem_modifyNonNull, mem_modify, cutEnd, hnp, hnp.symm,
        head?_ne_some hnB, head?_ne_some hpB, f.prev_eq]
  · rw [← region_cutEnd]
    simp [region, mem_modifyNonNull, mem_modify, hnp.symm, head?_ne_some hpB]
  · simp [region, mem_modifyNonNull, mem_modify, hnp, head?_ne_some hnB]

end End

/-! ## The operation is within the descriptor -/

section Middle

variable {vas : Vas} {lo hi e : Nat} {A B : List Ptr} {p m n : Ptr} {op : OperationParameters}
  {alloc : NodeAllocator}

/-- The state after the middle region was spawned, as the node `m`. -/
def spawnMiddle (vas : Vas) (op : OperationParameters) (p m : Ptr) (e : Nat) (t : AvlTree Ptr) :
    Vas :=
  ((vas.cutEnd p op.address).setTree t).modify m fun _ =>
    { op.operation.spawned op.address e with next := none, prev := none }

theorem region_spawnMiddle_ne {q : Ptr} {t : AvlTree Ptr} (h : q ≠ m) :
    (vas.spawnMiddle op p m e t).region q = (vas.cutEnd p op.address).region q := by
  rw [region, spawnMiddle, mem_modify, if_neg h, mem_setTree, region]

theorem region_spawnMiddle (vas : Vas) (op : OperationParameters) (p m : Ptr) (e : Nat)
    (t : AvlTree Ptr) :
    (vas.spawnMiddle op p m e t).region m = op.operation.spawned op.address e := by
  rw [region, spawnMiddle, mem_modify, if_pos rfl]

/-- The first of the two nodes. -/
theorem spawn_middle (f : vas.Focus lo hi A p B) (hv : (vas.region p).start < op.address)
    (hve : op.address ≤ e) (hlt : e < (vas.region p).stop)
    (hm : alloc.allocateNode vas.tree.inorder = .ok m) :
    ∃ t, (vas.cutEnd p op.address).spawn alloc op.operation op.address e =
        .ok (m, vas.spawnMiddle op p m e t) ∧
      t.inorder = (A ++ [p]) ++ m :: B :=
  insert_cutEnd (v := op.address) f
    ({ op.operation.spawned op.address e with next := none, prev := none })
    (Nat.le_of_eq (Operation.start_spawned _ _ _).symm)
    (by rw [Operation.start_spawned, Operation.stop_spawned]; exact hve)
    (by rw [Operation.stop_spawned]; exact Nat.le_of_lt hlt) hv hm

theorem spawnMiddle_before {t : AvlTree Ptr} (f : vas.Focus lo hi A p B)
    (hv : (vas.region p).start < op.address) (hve : op.address ≤ e) :
    ∀ x ∈ A ++ [p, m], ((vas.spawnMiddle op p m e t).region x).stop ≤ e := by
  intro x hx
  by_cases hxm : x = m
  · rw [hxm, region_spawnMiddle, Operation.stop_spawned]
  · have hx' : x ∈ A ++ [p] := by
      simp only [List.mem_append, List.mem_cons, List.not_mem_nil, or_false] at hx ⊢
      tauto
    rw [region_spawnMiddle_ne hxm]
    exact (cutEnd_before f hv x hx').trans hve

theorem spawnMiddle_after {t : AvlTree Ptr} (f : vas.Focus lo hi A p B)
    (hfresh : m ∉ A ++ p :: B) :
    ∀ x ∈ B, (vas.region p).stop ≤ ((vas.spawnMiddle op p m e t).region x).start ∧
      ((vas.spawnMiddle op p m e t).region x).start <
        ((vas.spawnMiddle op p m e t).region x).stop := by
  intro x hx
  have hxm : x ≠ m := fun h => hfresh (by simp [← h, hx])
  rw [region_spawnMiddle_ne hxm]
  exact cutEnd_after f x hx

/-- The second of the two nodes. -/
theorem insert_spawnMiddle {t : AvlTree Ptr} (f : vas.Focus lo hi A p B)
    (ht : t.inorder = (A ++ [p]) ++ m :: B) (hv : (vas.region p).start < op.address)
    (hve : op.address ≤ e) (hlt : e < (vas.region p).stop) (hfresh : m ∉ A ++ p :: B)
    (payload : MemoryRegion) (hpl : payload.range = ⟨e, (vas.region p).stop⟩)
    (hn : alloc.allocateNode (A ++ p :: m :: B) = .ok n) :
    ∃ t', (vas.spawnMiddle op p m e t).insert alloc payload =
        .ok (n, ((vas.spawnMiddle op p m e t).setTree t').modify n fun _ => payload) ∧
      t'.inorder = (A ++ [p, m]) ++ n :: B := by
  have hin : (vas.spawnMiddle op p m e t).tree.inorder = (A ++ [p, m]) ++ B := by
    rw [spawnMiddle, tree_modify, tree_setTree, ht]
    simp
  have hstart : payload.start = e := by rw [Region.start, hpl]
  have hstop : payload.stop = (vas.region p).stop := by rw [Region.stop, hpl]
  refine Vas.insert_ok hin (by omega) ?_ ?_ (by rw [← hn]; simp)
  · rw [hstart]
    exact spawnMiddle_before f hv hve
  · rw [hstop]
    exact spawnMiddle_after f hfresh

theorem executeMiddle_ok (f : vas.Focus lo hi A p B) (he : Word.add op.address op.size = e)
    (hv : (vas.region p).start < op.address) (hve : op.address ≤ e)
    (hlt : e < (vas.region p).stop) (hm : alloc.allocateNode vas.tree.inorder = .ok m)
    (hn : alloc.allocateNode (A ++ p :: m :: B) = .ok n) :
    ∃ vas', vas.executeMiddle alloc op p = (.okay, vas') ∧ vas.Spliced vas' A [p, m, n] B ∧
      vas'.region p = ((vas.region p).setStop op.address).clear guardHigh ∧
      vas'.region m = op.operation.spawned op.address e ∧
      vas'.region n = (vas.region p).above e := by
  have hfm := alloc.fresh _ _ hm
  have hfn := alloc.fresh _ _ hn
  rw [f.inorder] at hfm
  have hmp : m ≠ p := fun h => hfm (by simp [h])
  have hmA : m ∉ A := fun h => hfm (by simp [h])
  have hmB : m ∉ B := fun h => hfm (by simp [h])
  have hnp : n ≠ p := fun h => hfn (by simp [h])
  have hnm : n ≠ m := fun h => hfn (by simp [h])
  have hnA : n ∉ A := fun h => hfn (by simp [h])
  have hnB : n ∉ B := fun h => hfn (by simp [h])
  have hpB := f.notMem_right
  obtain ⟨t, h1, hin1⟩ := spawn_middle f hv hve hlt hm
  let payload : MemoryRegion := { (vas.region p).above e with prev := some m, next := B.head? }
  obtain ⟨t', h2, hin2⟩ := insert_spawnMiddle f hin1 hv hve hlt hfm payload rfl hn
  have hmp' : (vas.spawnMiddle op p m e t).mem p = (vas.cutEnd p op.address).mem p := by
    rw [spawnMiddle, mem_modify, if_neg hmp.symm, mem_setTree]
  have hpayload : payload =
      { range := ⟨e, (vas.mem p).range.stop⟩
        flags := ((vas.spawnMiddle op p m e t).mem p).flags
        content := ((vas.spawnMiddle op p m e t).mem p).content
        type := (((vas.spawnMiddle op p m e t).mem p).type &&& ~~~guardLow) |||
          ((vas.mem p).type &&& guardHigh)
        prev := some m
        next := ((vas.spawnMiddle op p m e t).mem p).next } := by
    rw [hmp', cutEnd, mem_modify, if_pos rfl]
    simp only [payload, ← f.next_eq]
    rfl
  refine ⟨((((((vas.spawnMiddle op p m e t).setTree t').modify n fun _ => payload).modify m
    fun r => { r with next := some n }).modify m fun r => { r with prev := some p }).modify p
    fun r => { r with next := some m }).modifyNonNull B.head? fun r => { r with prev := some n },
    ?_, ?_, ?_, ?_, ?_⟩
  · have hnext : ((((vas.spawnMiddle op p m e t).setTree t').modify n fun _ => payload).mem
        n).next = B.head? := by
      rw [mem_modify, if_pos rfl]
    unfold cutEnd at h1
    simp only [executeMiddle, he, h1, ← hpayload, h2]
    simp only [mem_modify, hnm, hnp, if_false] at hnext ⊢
    rw [hnext]
  · refine f.threaded.splice [p] f.inorder f.nodup (by simp [hin2]) (by simp) ?_ ?_ ?_
      (by simp [spawnMiddle, cutEnd]) ?_
    · refine f.threaded.left_kept f.inorder fun x hx => ?_
      have hxp : x ≠ p := f.ne_of_mem_left hx
      have hxm : x ≠ m := fun h => hmA (h ▸ hx)
      have hxn : x ≠ n := fun h => hnA (h ▸ hx)
      have hxB : x ∉ B := f.disjoint hx
      simp [mem_modifyNonNull, mem_modify, spawnMiddle, cutEnd, hxm, hxn, hxp, head?_ne_some hxB]
    · intro x hx
      have hxp : x ≠ p := f.ne_of_mem_right hx
      have hxm : x ≠ m := fun h => hmB (h ▸ hx)
      have hxn : x ≠ n := fun h => hnB (h ▸ hx)
      simp only [mem_modifyNonNull, mem_modify, spawnMiddle, cutEnd, hxm, hxn, hxp, mem_setTree,
        if_false]
      rfl
    · simpa [spawnMiddle, cutEnd] using f.threaded.first_kept f.inorder
    · simp [Vas.next, Vas.prev, mem_modifyNonNull, mem_modify, spawnMiddle, cutEnd, hmp, hmp.symm,
        hnp, hnp.symm, hnm, hnm.symm, head?_ne_some hnB, head?_ne_some hpB, head?_ne_some hmB,
        f.prev_eq, payload]
  · rw [← region_cutEnd]
    simp [region, mem_modifyNonNull, mem_modify, hnp.symm, hmp.symm, head?_ne_some hpB, hmp']
  · rw [← region_spawnMiddle vas op p m e t]
    simp [region, mem_modifyNonNull, mem_modify, hnm.symm, hmp, head?_ne_some hmB]
  · simp [region, mem_modifyNonNull, mem_modify, hnm, hnp, head?_ne_some hnB, payload]

theorem executeMiddle_error_first {res : HandleResult} (f : vas.Focus lo hi A p B)
    (he : Word.add op.address op.size = e) (hv : (vas.region p).start < op.address)
    (hve : op.address ≤ e) (hlt : e < (vas.region p).stop)
    (hm : alloc.allocateNode vas.tree.inorder = .error res) :
    vas.executeMiddle alloc op p = (res, vas.cutEnd p op.address) := by
  have h1 := insert_cutEnd_error (v := op.address) f
    ({ op.operation.spawned op.address e with next := none, prev := none })
    (Nat.le_of_eq (Operation.start_spawned _ _ _).symm)
    (by rw [Operation.start_spawned, Operation.stop_spawned]; exact hve)
    (by rw [Operation.stop_spawned]; exact Nat.le_of_lt hlt) hv hm
  unfold cutEnd at h1
  simp only [executeMiddle, he, spawn, h1]
  rfl

theorem executeMiddle_error_second {res : HandleResult} (f : vas.Focus lo hi A p B)
    (he : Word.add op.address op.size = e) (hv : (vas.region p).start < op.address)
    (hve : op.address ≤ e) (hlt : e < (vas.region p).stop)
    (hm : alloc.allocateNode vas.tree.inorder = .ok m)
    (hn : alloc.allocateNode (A ++ p :: m :: B) = .error res) :
    ∃ t, vas.executeMiddle alloc op p = (res, vas.spawnMiddle op p m e t) ∧
      t.inorder = (A ++ [p]) ++ m :: B := by
  have hfm := alloc.fresh _ _ hm
  rw [f.inorder] at hfm
  obtain ⟨t, h1, hin⟩ := spawn_middle f hv hve hlt hm
  refine ⟨t, ?_, hin⟩
  have h2 : ∀ payload : MemoryRegion, payload.range = ⟨e, (vas.region p).stop⟩ →
      (vas.spawnMiddle op p m e t).insert alloc payload = .error res := by
    intro payload hpl
    have hstart : payload.start = e := by rw [Region.start, hpl]
    have hstop : payload.stop = (vas.region p).stop := by rw [Region.stop, hpl]
    refine Vas.insert_error (A := A ++ [p, m]) (B := B) ?_ (by omega) ?_ ?_ (by rw [← hn]; simp)
    · rw [spawnMiddle, tree_modify, tree_setTree, hin]
      simp
    · rw [hstart]
      exact spawnMiddle_before f hv hve
    · rw [hstop]
      exact spawnMiddle_after f hfm
  unfold cutEnd at h1
  simp only [executeMiddle, he, h1]
  rw [h2 _ rfl]

end Middle

end Vas

/-! ## What `Check` reads -/

namespace Operation

variable {op : Operation} {v size e : Nat} {prev next : Option Region} {r : Region}

theorem check_accepted : (op.check v size prev r next).accepted = decide (op.Accepts r) := by
  cases op with
  | allocate flags content type =>
      by_cases h : r.content = .free <;> simp [check, checkAllocate, Accepts, h]
  | free => by_cases h : r.content = .free <;> simp [check, checkFree, Accepts, h]

theorem check_failureResult : (op.check v size prev r next).failureResult = .pageFree := by
  cases op with
  | allocate flags content type =>
      by_cases h : r.content = .free <;> simp [check, checkAllocate, h]
  | free => by_cases h : r.content = .free <;> simp [check, checkFree, h]

theorem check_meetsLeft (hacc : op.Accepts r) (hv : r.start ≤ v) (hv64 : v < 2 ^ 64) :
    (op.check v size prev r next).meetsLeft = decide (op.MeetsLeft v r) := by
  rw [Bool.eq_iff_iff, decide_eq_true_iff]
  cases op with
  | allocate flags content type =>
      have hacc' : r.content = .free := hacc
      simp [check, checkAllocate, hacc', MeetsLeft, Region.start]
  | free =>
      have hacc' : r.content ≠ .free := hacc
      have hsub : r.start = Word.sub v pageSize ↔ r.start + pageSize = v := by
        unfold Word.sub pageSize
        omega
      simp only [MeetsLeft, ← hsub]
      simp [check, checkFree, hacc', Region.start]

theorem check_meetsRight (hacc : op.Accepts r) (he : v + size = e) (he64 : e < 2 ^ 64)
    (hstop : r.stop < 2 ^ 64) :
    (op.check v size prev r next).meetsRight = decide (op.MeetsRight e r) := by
  have hadd : Word.add v size = e := by
    rw [Word.add_of_lt (by omega), he]
  rw [Bool.eq_iff_iff, decide_eq_true_iff]
  cases op with
  | allocate flags content type =>
      have hacc' : r.content = .free := hacc
      simp [check, checkAllocate, hacc', MeetsRight, Region.stop, hadd]
  | free =>
      have hacc' : r.content ≠ .free := hacc
      -- a wrapped sum is too small to be the end of a region that goes beyond the request
      have hguard : r.stop ≤ e ∨ (r.stop = Word.add e pageSize ↔ r.stop = e + pageSize) := by
        clear hadd he
        unfold Word.add pageSize
        omega
      rcases hguard with hle | hguard
      · have hle' : r.range.stop ≤ e := hle
        simp [check, checkFree, hacc', MeetsRight, hadd, hle, hle']
      · simp only [MeetsRight, ← hguard]
        simp [check, checkFree, hacc', hadd, Region.stop]

theorem check_leftMergeable (hacc : op.Accepts r) :
    (op.check v size prev r next).leftMergeable =
      ((op.check v size prev r next).meetsLeft && prev.any fun a => decide (op.LeftMergeable a)) := by
  cases op with
  | allocate flags content type =>
      have hacc' : r.content = .free := hacc
      simp only [check, checkAllocate, hacc', if_true]
      congr 2
      funext a
      rw [Bool.eq_iff_iff, decide_eq_true_iff]
      simp [LeftMergeable, withoutGuards, and_assoc]
  | free =>
      have hacc' : r.content ≠ .free := hacc
      simp only [check, checkFree, ne_eq, hacc', not_false_eq_true, if_true]
      congr 2

theorem check_rightMergeable (hacc : op.Accepts r) :
    (op.check v size prev r next).rightMergeable =
      ((op.check v size prev r next).meetsRight &&
        next.any fun b => decide (op.RightMergeable b)) := by
  cases op with
  | allocate flags content type =>
      have hacc' : r.content = .free := hacc
      simp only [check, checkAllocate, hacc', if_true]
      congr 2
      funext a
      rw [Bool.eq_iff_iff, decide_eq_true_iff]
      simp [RightMergeable, withoutGuards, and_assoc]
  | free =>
      have hacc' : r.content ≠ .free := hacc
      simp only [check, checkFree, ne_eq, hacc', not_false_eq_true, if_true]
      congr 2

end Operation

end Beelzebub.Memory
