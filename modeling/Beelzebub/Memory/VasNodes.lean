import Beelzebub.Utils.AvlInsertion

/-!
# The nodes of an address space

The nodes of the tree of regions come from an object allocator.  The typed `AllocateObject` hands
a variable of its own to the untyped one, which sets it only where it succeeds, and copies the
variable into the link of the tree whatever the result.  What the link holds after a failure is
what happened to be in the variable.
-/

namespace Beelzebub.Memory.Vas

open Utils

/-! ## The code -/

/-- The typed `AllocateObject`: the result, and what is in the pointer afterwards.  The untyped one
answers with an object or fails, and the variable holds `uninitialised` before. -/
def allocateObject (sizeOfT objectSize : ℕ) (answer : Except HandleResult ℕ)
    (uninitialised result : ℕ) : HandleResult × ℕ :=
  if sizeOfT > objectSize then (.argumentTemplateInvalid, result)
  else
    match answer with
    | .ok object => (.okay, object)
    | .error e => (e, uninitialised)

/-- `AllocateNode`, of the tree and of the address space. -/
def allocateNode (sizeOfNode objectSize : ℕ) (answer : Except HandleResult ℕ)
    (uninitialised node : ℕ) : HandleResult × ℕ :=
  allocateObject sizeOfNode objectSize answer uninitialised node

/-- What `AllocateNode` reports when the allocator fails. -/
def refusal (sizeOfNode objectSize : ℕ) (e : HandleResult) : HandleResult :=
  if sizeOfNode > objectSize then .argumentTemplateInvalid else e

/-! ## Failed insertions -/

variable {P K : Type} {compare : P → P → Ordering} {compareKey : P → K → Ordering}
  {sizeOfNode objectSize uninitialised levels : ℕ} {e : HandleResult} {s : AvlObject P}
  {t : AvlTree ℕ}

/-- The link is null only where the variable is, or nothing is allocated. -/
theorem allocateNode_refused :
    allocateNode sizeOfNode objectSize (.error e) uninitialised 0 =
      (refusal sizeOfNode objectSize e,
        if sizeOfNode > objectSize then 0 else uninitialised) := by
  rw [allocateNode, allocateObject, refusal]
  split
  · rfl
  · rfl

theorem refusal_ne (he : e ≠ .okay) : refusal sizeOfNode objectSize e ≠ .okay := by
  rw [refusal]
  split
  · exact nofun
  · exact he

/-- When no node can be allocated, an insertion returns the error and leaves the tree as it is
exactly if a node is in the way, so that none is asked for; or nodes do not fit in the objects; or
the variable that nothing has set is null. -/
theorem insertion_unharmed_iff (he : e ≠ .okay) (hs : s.nodes.Shape s.root t)
    (hn : t.inorder.Nodup) (hlevels : t.height < levels) (op : AvlObject.Insertion P K) :
    op.Unharmed compare compareKey
        (allocateNode sizeOfNode objectSize (.error e) uninitialised) levels s t
        (refusal sizeOfNode objectSize e) ↔
      (t.find fun x => op.compareTo compare compareKey (s.nodes.payload x)).isSome ∨
        objectSize < sizeOfNode ∨ uninitialised = 0 := by
  rw [AvlObject.Insertion.unharmed_iff allocateNode_refused (refusal_ne he) hs hn hlevels]
  refine or_congr_right ?_
  split
  next hsize => exact iff_of_true rfl (Or.inl hsize)
  next hsize => exact ⟨Or.inr, fun h => h.resolve_left hsize⟩

/-- A tree without nodes, of which nothing is known but that it is empty. -/
def empty : AvlObject ℕ := ⟨0, 0, ⟨fun _ => 0, fun _ => 0, fun _ => 0, fun _ => 0⟩⟩

theorem empty_shape : empty.nodes.Shape empty.root .null := rfl

theorem insertion_unharmed_iff_empty :
    (AvlObject.Insertion.insert (K := ℕ) 7).Unharmed Ord.compare Ord.compare
        (allocateNode 48 48 (.error .outOfMemory) 4096) 1 empty .null
        (refusal 48 48 .outOfMemory) ↔
      ((AvlTree.null : AvlTree ℕ).find fun x => Ord.compare (empty.nodes.payload x) 7).isSome ∨
        48 < 48 ∨ 4096 = 0 := by
  have hne : HandleResult.outOfMemory ≠ .okay := nofun
  exact insertion_unharmed_iff hne empty_shape .nil (by decide) (.insert 7)

/-- A first node that is not allocated leaves a root that is not null. -/
theorem insertion_harmed :
    ¬∀ (e : HandleResult) (uninitialised : ℕ) (s : AvlObject ℕ) (t : AvlTree ℕ)
      (op : AvlObject.Insertion ℕ ℕ), e ≠ .okay → s.nodes.Shape s.root t → t.inorder.Nodup →
      ∃ levels, op.Unharmed Ord.compare Ord.compare
        (allocateNode 48 48 (.error e) uninitialised) levels s t e := by
  intro hall
  obtain ⟨levels, h⟩ := hall .outOfMemory 4096 empty .null (.insert 7) nofun empty_shape .nil
  cases levels with
  | zero => cases h
  | succ levels =>
      exact absurd (congrArg AvlObject.root (Prod.mk.inj (Option.some.inj h)).2) (by decide)

end Beelzebub.Memory.Vas
