import Beelzebub.Utils.AvlBalance
import Mathlib

/-!
# The AVL tree as an ordered set

An `AvlTree` object with the payloads of its nodes.  Payloads are compared by a key from a
linear order.  The set that the tree stands for maps a key to the node and the payload that
have it: a payload stays in its node until it is removed.
-/

namespace Beelzebub.Utils

namespace AvlTree

variable {α : Type} {cmp : α → Ordering}

/-- `InsertOrFind`: the result, the node that is in the way and the tree. -/
def insertOrFind (cmp : α → Ordering) (create : Except HandleResult α) :
    AvlTree α → HandleResult × Option α × AvlTree α
  | null =>
      match create with
      | .error e => (e, none, null)
      | .ok x => (.okay, none, node null x 1 null)
  | node l x h r =>
      match cmp x with
      | .eq => (.cardinalityViolation, some x, node l x h r)
      | .gt =>
          let (res, finding, l') := l.insertOrFind cmp create
          (res, finding, if res = .okay then (node l' x h r).balance else node l' x h r)
      | .lt =>
          let (res, finding, r') := r.insertOrFind cmp create
          (res, finding, if res = .okay then (node l x h r').balance else node l x h r')

/-- It inserts what `Insert` inserts, and finds what `Find` finds. -/
theorem insertOrFind_eq (cmp : α → Ordering) (x : α) (t : AvlTree α) :
    t.insertOrFind cmp (.ok x) =
      match t.insert cmp (.ok x) with
      | .ok (_, t') => (.okay, none, t')
      | .error e => (e, t.find cmp, t) := by
  induction t with
  | null => rfl
  | node l y h r ihl ihr =>
      rw [insertOrFind, insert, find]
      cases cmp y with
      | eq => rfl
      | gt =>
          simp only [ihl]
          cases hins : l.insert cmp (.ok x) with
          | ok out => rfl
          | error e =>
              rcases error_insert hins with rfl | herr
              · rfl
              · cases herr
      | lt =>
          simp only [ihr]
          cases hins : r.insert cmp (.ok x) with
          | ok out => rfl
          | error e =>
              rcases error_insert hins with rfl | herr
              · rfl
              · cases herr

theorem insert_of_find {t : AvlTree α} {x : α} (hfind : t.find cmp = some x)
    (create : Except HandleResult α) : t.insert cmp create = .error .cardinalityViolation := by
  induction t with
  | null => cases hfind
  | node l y h r ihl ihr =>
      rw [find] at hfind
      rw [insert]
      cases hy : cmp y with
      | eq => rfl
      | gt =>
          simp only [hy] at hfind ⊢
          rw [ihl hfind]
          rfl
      | lt =>
          simp only [hy] at hfind ⊢
          rw [ihr hfind]
          rfl

/-- The predicate is asked about the node that `Find` finds. -/
theorem removeIf_of_find {pred : α → Bool} {t : AvlTree α} {x : α} (hfind : t.find cmp = some x) :
    t.removeIf cmp pred = if pred x then t.remove cmp else (none, t) := by
  induction t with
  | null => cases hfind
  | node l y h r ihl ihr =>
      rw [find] at hfind
      rw [removeIf, remove]
      cases hy : cmp y with
      | eq =>
          simp only [hy] at hfind ⊢
          cases hfind
          rfl
      | gt =>
          simp only [hy] at hfind ⊢
          rw [ihl hfind]
          cases pred x with
          | true => rfl
          | false => rfl
      | lt =>
          simp only [hy] at hfind ⊢
          rw [ihr hfind]
          cases pred x with
          | true => rfl
          | false => rfl

theorem removeIf_of_absent {pred : α → Bool} {t : AvlTree α} (hfind : t.find cmp = none) :
    t.removeIf cmp pred = (none, t) := by
  induction t with
  | null => rfl
  | node l y h r ihl ihr =>
      rw [find] at hfind
      rw [removeIf]
      cases hy : cmp y with
      | eq =>
          simp only [hy] at hfind
          cases hfind
      | gt =>
          simp only [hy] at hfind ⊢
          rw [ihl hfind]
      | lt =>
          simp only [hy] at hfind ⊢
          rw [ihr hfind]

end AvlTree

/-! ## The code -/

/-- The object of the class `AvlTree`, with the memory of the nodes. -/
structure AvlSet (ν P : Type) where
  root : AvlTree ν
  payload : ν → P
  nodeCount : Nat

namespace AvlSet

variable {ν P K : Type} [DecidableEq ν] [LinearOrder K] (key : P → K)

/-- `Compare(node->Payload, key)`. -/
def compareTo (s : AvlSet ν P) (k : K) (n : ν) : Ordering := compare (key (s.payload n)) k

/-- Stores the payload of a node. -/
def fill (n : ν) (p : P) (s : AvlSet ν P) : AvlSet ν P :=
  { s with payload := Function.update s.payload n p }

def find (k : K) (s : AvlSet ν P) : Option ν := s.root.find (s.compareTo key k)

/-- `Insert`, where the allocator has this node for it. -/
def insert (p : P) (n : ν) (s : AvlSet ν P) : HandleResult × AvlSet ν P :=
  match s.root.insert (s.compareTo key (key p)) (.ok n) with
  | .error e => (e, s)
  | .ok (_, root) =>
      (.okay, { s.fill n p with root, nodeCount := (s.nodeCount + 1) % 2 ^ 64 })

/-- `InsertOrFind`.  It does not count the node. -/
def insertOrFind (p : P) (n : ν) (s : AvlSet ν P) : HandleResult × Option P × AvlSet ν P :=
  match s.root.insertOrFind (s.compareTo key (key p)) (.ok n) with
  | (res, finding, root) =>
      (res, finding.map s.payload,
        if res = .okay then { s.fill n p with root } else { s with root })

/-- `InsertBlank`: the payload of the new node is left for the caller. -/
def insertBlank (k : K) (n : ν) (s : AvlSet ν P) : HandleResult × AvlSet ν P :=
  match s.root.insert (s.compareTo key k) (.ok n) with
  | .error e => (e, s)
  | .ok (_, root) => (.okay, { s with root, nodeCount := (s.nodeCount + 1) % 2 ^ 64 })

/-- The end of a removal.  The allocator takes the node back. -/
def detach (out : Option ν × AvlTree ν) (s : AvlSet ν P) : HandleResult × AvlSet ν P :=
  match out with
  | (none, root) => (.notFound, { s with root })
  | (some _, root) => (.okay, { s with root, nodeCount := (s.nodeCount + (2 ^ 64 - 1)) % 2 ^ 64 })

def remove (k : K) (s : AvlSet ν P) : HandleResult × AvlSet ν P :=
  s.detach (s.root.remove (s.compareTo key k))

def removeIf (k : K) (pred : ν → P → Bool) (s : AvlSet ν P) : HandleResult × AvlSet ν P :=
  s.detach (s.root.removeIf (s.compareTo key k) fun n => pred n (s.payload n))

/-! ## The set -/

/-- The tree stands for a finite map from keys to nodes and payloads. -/
structure Represents (s : AvlSet ν P) (m : K → Option (ν × P)) : Prop where
  /-- A search tree with unique keys. -/
  ordered : (s.root.inorder.map fun n => key (s.payload n)).Pairwise (· < ·)
  balanced : s.root.Balanced
  contents : ∀ k n p, m k = some (n, p) ↔ n ∈ s.root.inorder ∧ s.payload n = p ∧ key p = k

variable {key} {s : AvlSet ν P} {m : K → Option (ν × P)} {k : K} {n : ν} {p : P}

omit [DecidableEq ν] in
/-- A key cuts the nodes in two, with at most one node between. -/
theorem exists_cut {f : ν → K} (l : List ν) (h : (l.map f).Pairwise (· < ·)) (k : K) :
    ∃ A B, (∀ a ∈ A, f a < k) ∧ (∀ b ∈ B, k < f b) ∧
      (l = A ++ B ∨ ∃ x, f x = k ∧ l = A ++ x :: B) := by
  induction l with
  | nil => exact ⟨[], [], by simp, by simp, Or.inl rfl⟩
  | cons y l ih =>
      rw [List.map_cons, List.pairwise_cons] at h
      obtain ⟨hfirst, hl⟩ := h
      have hy : ∀ b ∈ l, f y < f b := fun b hb => hfirst _ (List.mem_map_of_mem hb)
      rcases lt_trichotomy (f y) k with hlt | heq | hgt
      · obtain ⟨A, B, hA, hB, hsplit⟩ := ih hl
        refine ⟨y :: A, B, ?_, hB, ?_⟩
        · intro a ha
          rcases List.mem_cons.mp ha with rfl | ha
          · exact hlt
          · exact hA a ha
        · rcases hsplit with rfl | ⟨x, hx, rfl⟩
          · exact Or.inl rfl
          · exact Or.inr ⟨x, hx, rfl⟩
      · exact ⟨[], l, by simp, fun b hb => heq ▸ hy b hb, Or.inr ⟨y, heq, rfl⟩⟩
      · refine ⟨[], y :: l, by simp, ?_, Or.inl rfl⟩
        intro b hb
        rcases List.mem_cons.mp hb with rfl | hb
        · exact hgt
        · exact hgt.trans (hy b hb)

omit [DecidableEq ν] in
/-- Where the node of a key is, or would be. -/
theorem Represents.cut (h : Represents key s m) (k : K) :
    ∃ A B, (∀ a ∈ A, s.compareTo key k a = .lt) ∧ (∀ b ∈ B, s.compareTo key k b = .gt) ∧
      (m k = none ∧ s.root.inorder = A ++ B ∨
        ∃ x, m k = some (x, s.payload x) ∧ s.compareTo key k x = .eq ∧
          s.root.inorder = A ++ x :: B) := by
  obtain ⟨A, B, hA, hB, hsplit⟩ := exists_cut _ h.ordered k
  refine ⟨A, B, fun a ha => compare_lt_iff_lt.mpr (hA a ha),
    fun b hb => compare_gt_iff_gt.mpr (hB b hb), ?_⟩
  rcases hsplit with hsplit | ⟨x, hx, hsplit⟩
  · refine Or.inl ⟨?_, hsplit⟩
    cases hm : m k with
    | none => rfl
    | some out =>
        obtain ⟨hmem, hp, hk⟩ := (h.contents k out.1 out.2).mp hm
        rw [← hp] at hk
        rw [hsplit] at hmem
        rcases List.mem_append.mp hmem with ha | hb
        · exact absurd hk (hA _ ha).ne
        · exact absurd hk (hB _ hb).ne'
  · refine Or.inr ⟨x, ?_, compare_eq_iff_eq.mpr hx, hsplit⟩
    exact (h.contents k x _).mpr ⟨by rw [hsplit]; simp, rfl, hx⟩

omit [DecidableEq ν] in
theorem Represents.find_eq (h : Represents key s m) (k : K) :
    s.find key k = (m k).map Prod.fst := by
  obtain ⟨A, B, hA, hB, ⟨hm, hsplit⟩ | ⟨x, hm, hx, hsplit⟩⟩ := h.cut k
  · rw [hm]
    exact AvlTree.find_eq_none hsplit hA hB
  · rw [hm]
    exact AvlTree.find_eq_some hsplit hA hx hB

/-- A node is added between the smaller and the larger ones. -/
theorem Represents.added (h : Represents key s m) {A B : List ν} {root : AvlTree ν}
    (hA : ∀ a ∈ A, s.compareTo key (key p) a = .lt) (hB : ∀ b ∈ B, s.compareTo key (key p) b = .gt)
    (hsplit : s.root.inorder = A ++ B) (hnone : m (key p) = none) (hfresh : n ∉ s.root.inorder)
    (hin : root.inorder = A ++ n :: B) (hbal : root.Balanced) (count : Nat) :
    Represents key { s.fill n p with root, nodeCount := count }
      (Function.update m (key p) (some (n, p))) := by
  have hother : ∀ x ∈ s.root.inorder, (s.fill n p).payload x = s.payload x := by
    intro x hx
    refine Function.update_of_ne ?_ _ _
    rintro rfl
    exact hfresh hx
  have hself : (s.fill n p).payload n = p := Function.update_self ..
  have hmem : ∀ x, x ∈ root.inorder ↔ x = n ∨ x ∈ s.root.inorder := by
    intro x
    rw [hin, hsplit]
    simp only [List.mem_append, List.mem_cons]
    tauto
  refine ⟨?_, hbal, fun k x q => ?_⟩
  · have hmap : ∀ l : List ν, (∀ x ∈ l, x ∈ s.root.inorder) →
        l.map (fun x => key ((s.fill n p).payload x)) = l.map fun x => key (s.payload x) := by
      intro l hl
      refine List.map_congr_left fun x hx => ?_
      rw [hother x (hl x hx)]
    have hord := h.ordered
    rw [hsplit, List.map_append, List.pairwise_append] at hord
    obtain ⟨hordA, hordB, hcross⟩ := hord
    show (root.inorder.map fun x => key ((s.fill n p).payload x)).Pairwise (· < ·)
    rw [hin, List.map_append, List.map_cons, hself, hmap A fun x hx => by rw [hsplit]; simp [hx],
      hmap B fun x hx => by rw [hsplit]; simp [hx], List.pairwise_append, List.pairwise_cons]
    refine ⟨hordA, ⟨?_, hordB⟩, ?_⟩
    · intro q hq
      obtain ⟨b, hb, rfl⟩ := List.mem_map.mp hq
      exact compare_gt_iff_gt.mp (hB b hb)
    · intro q hq q' hq'
      obtain ⟨a, ha, rfl⟩ := List.mem_map.mp hq
      have hlt : key (s.payload a) < key p := compare_lt_iff_lt.mp (hA a ha)
      rcases List.mem_cons.mp hq' with rfl | hq'
      · exact hlt
      · exact hcross _ hq _ hq'
  · show Function.update m (key p) (some (n, p)) k = some (x, q) ↔
      x ∈ root.inorder ∧ (s.fill n p).payload x = q ∧ key q = k
    rw [hmem]
    by_cases hk : k = key p
    · subst hk
      rw [Function.update_self, Option.some.injEq, Prod.mk.injEq]
      constructor
      · rintro ⟨rfl, rfl⟩
        exact ⟨Or.inl rfl, hself, rfl⟩
      · rintro ⟨rfl | hx, hq, hkey⟩
        · exact ⟨rfl, hself.symm.trans hq⟩
        · rw [hother x hx] at hq
          have := (h.contents (key p) x q).mpr ⟨hx, hq, hkey⟩
          rw [hnone] at this
          cases this
    · rw [Function.update_of_ne hk, h.contents]
      constructor
      · rintro ⟨hx, hq, hkey⟩
        exact ⟨Or.inr hx, (hother x hx).trans hq, hkey⟩
      · rintro ⟨rfl | hx, hq, hkey⟩
        · rw [hself] at hq
          exact absurd (hq ▸ hkey.symm) hk
        · exact ⟨hx, (hother x hx).symm.trans hq, hkey⟩

omit [DecidableEq ν] in
/-- The node of a key is taken out. -/
theorem Represents.removed (h : Represents key s m) {A B : List ν} {x : ν} {root : AvlTree ν}
    (hm : m k = some (x, s.payload x)) (hsplit : s.root.inorder = A ++ x :: B)
    (hin : root.inorder = A ++ B) (hbal : root.Balanced) (count : Nat) :
    Represents key { s with root, nodeCount := count } (Function.update m k none) := by
  have hsub : root.inorder.Sublist s.root.inorder := by
    rw [hin, hsplit]
    exact (List.Sublist.refl A).append (List.sublist_cons_self x B)
  have hord := h.ordered
  have hkey : key (s.payload x) = k := ((h.contents k x _).mp hm).2.2
  refine ⟨hord.sublist (hsub.map _), hbal, fun k' y q => ?_⟩
  show Function.update m k none k' = some (y, q) ↔ y ∈ root.inorder ∧ s.payload y = q ∧ key q = k'
  have hother : ∀ y ∈ root.inorder, key (s.payload y) ≠ k := by
    rw [hsplit, List.map_append, List.map_cons, List.pairwise_append, List.pairwise_cons] at hord
    obtain ⟨-, ⟨hright, -⟩, hleft⟩ := hord
    intro y hy
    rw [hin] at hy
    rcases List.mem_append.mp hy with hy | hy
    · exact hkey ▸ (hleft _ (List.mem_map_of_mem hy) _ List.mem_cons_self).ne
    · exact hkey ▸ (hright _ (List.mem_map_of_mem hy)).ne'
  by_cases hk : k' = k
  · subst hk
    rw [Function.update_self]
    refine iff_of_false nofun ?_
    rintro ⟨hy, rfl, hq⟩
    exact hother y hy hq
  · rw [Function.update_of_ne hk, h.contents]
    refine and_congr_left ?_
    rintro ⟨rfl, hq⟩
    rw [hin, hsplit]
    simp only [List.mem_append, List.mem_cons]
    constructor
    · rintro (hy | rfl | hy)
      · exact Or.inl hy
      · exact absurd (hq.symm.trans hkey) hk
      · exact Or.inr hy
    · rintro (hy | hy)
      · exact Or.inl hy
      · exact Or.inr (Or.inr hy)

/-! ## Operations on the set -/

section Operations

variable (h : Represents key s m)

include h

/-- The tree with a new node, or the key is there. -/
theorem Represents.insert_cases (hfresh : n ∉ s.root.inorder) :
    (m (key p) = none ∧ ∃ root, s.root.insert (s.compareTo key (key p)) (.ok n) = .ok (n, root) ∧
      ∀ count, Represents key { s.fill n p with root, nodeCount := count }
        (Function.update m (key p) (some (n, p)))) ∨
    ((m (key p)).isSome ∧
      s.root.insert (s.compareTo key (key p)) (.ok n) = .error .cardinalityViolation) := by
  obtain ⟨A, B, hA, hB, ⟨hm, hsplit⟩ | ⟨x, hm, hx, hsplit⟩⟩ := h.cut (key p)
  · obtain ⟨root, hins, hin⟩ := AvlTree.inorder_insert _ hsplit hA hB n
    exact Or.inl ⟨hm, root, hins, fun count =>
      h.added hA hB hsplit hm hfresh hin (h.balanced.insert hins).1 count⟩
  · refine Or.inr ⟨by rw [hm]; rfl, ?_⟩
    have hfind := AvlTree.find_eq_some hsplit hA hx hB
    exact AvlTree.insert_of_find hfind _

omit [DecidableEq ν] in
theorem Represents.remove_cases (k : K) :
    (m k = none ∧ s.find key k = none) ∨
    (∃ x, m k = some (x, s.payload x) ∧ s.find key k = some x ∧
      (s.root.remove (s.compareTo key k)).1 = some x ∧
      ∀ count, Represents key ⟨(s.root.remove (s.compareTo key k)).2, s.payload, count⟩
        (Function.update m k none)) := by
  obtain ⟨A, B, hA, hB, ⟨hm, hsplit⟩ | ⟨x, hm, hx, hsplit⟩⟩ := h.cut k
  · exact Or.inl ⟨hm, AvlTree.find_eq_none hsplit hA hB⟩
  · obtain ⟨hres, hin⟩ := AvlTree.inorder_remove _ hsplit hA hx hB
    have hbal := (h.balanced.removeIf (s.compareTo key k) fun _ => true).1
    rw [← AvlTree.remove_eq_removeIf] at hbal
    exact Or.inr ⟨x, hm, AvlTree.find_eq_some hsplit hA hx hB, hres,
      fun count => h.removed hm hsplit hin hbal count⟩

end Operations

/-! ## Runs -/

/-- The calls that change a tree, with the node that the allocator has for an insertion.  A
blank payload is filled by the caller. -/
inductive Op (ν P K : Type) where
  | insert (p : P) (n : ν)
  | insertOrFind (p : P) (n : ν)
  | insertBlank (k : K) (n : ν) (p : P)
  | remove (k : K)
  | removeIf (k : K) (pred : ν → P → Bool)

namespace Op

/-- The result of a call, and the tree after it. -/
def perform (key : P → K) : Op ν P K → AvlSet ν P → HandleResult × AvlSet ν P
  | insert p n, s => s.insert key p n
  | insertOrFind p n, s => ((s.insertOrFind key p n).1, (s.insertOrFind key p n).2.2)
  | insertBlank k n p, s =>
      match s.insertBlank key k n with
      | (.okay, s) => (.okay, s.fill n p)
      | (res, s) => (res, s)
  | remove k, s => s.remove key k
  | removeIf k pred, s => s.removeIf key k pred

/-- The allocator has a node that is not in the tree, and a blank is filled with a payload
that has the key. -/
def Valid (key : P → K) (s : AvlSet ν P) : Op ν P K → Prop
  | insert _ n | insertOrFind _ n => n ∉ s.root.inorder
  | insertBlank k n p => n ∉ s.root.inorder ∧ key p = k
  | remove _ | removeIf _ _ => True

/-- What a call does to the set. -/
def apply (key : P → K) (m : K → Option (ν × P)) : Op ν P K → K → Option (ν × P)
  | insert p n | insertOrFind p n | insertBlank _ n p =>
      if (m (key p)).isSome then m else Function.update m (key p) (some (n, p))
  | remove k => Function.update m k none
  | removeIf k pred =>
      if (m k).any fun out => pred out.1 out.2 then Function.update m k none else m

/-- What a call reports about the set. -/
def report (key : P → K) (m : K → Option (ν × P)) : Op ν P K → HandleResult
  | insert p _ | insertOrFind p _ | insertBlank _ _ p =>
      if (m (key p)).isSome then .cardinalityViolation else .okay
  | remove k => if (m k).isSome then .okay else .notFound
  | removeIf k pred => if (m k).any fun out => pred out.1 out.2 then .okay else .notFound

end Op

/-- A step keeps the correspondence, reports what the set says, and changes nothing if it
does not succeed. -/
structure Simulates (key : P → K) (s : AvlSet ν P) (m : K → Option (ν × P)) (op : Op ν P K) :
    Prop where
  represents : Represents key (op.perform key s).2 (op.apply key m)
  result : (op.perform key s).1 = op.report key m
  unchanged : (op.perform key s).1 ≠ .okay → (op.perform key s).2 = s

section Step

variable (h : Represents key s m)

include h

theorem Represents.insert (hfresh : n ∉ s.root.inorder) : Simulates key s m (.insert p n) := by
  rcases h.insert_cases (p := p) hfresh with ⟨hm, root, hins, hrep⟩ | ⟨hm, hins⟩
  · have hout : (Op.insert p n).perform key s =
        (.okay, ⟨root, (s.fill n p).payload, (s.nodeCount + 1) % 2 ^ 64⟩) := by
      simp only [Op.perform, AvlSet.insert, hins]
    refine ⟨?_, ?_, fun hne => absurd (by rw [hout]) hne⟩
    · rw [hout, Op.apply, hm]
      exact hrep _
    · rw [hout, Op.report, hm]
      rfl
  · have hout : (Op.insert p n).perform key s = (.cardinalityViolation, s) := by
      simp only [Op.perform, AvlSet.insert, hins]
    refine ⟨?_, ?_, fun _ => by rw [hout]⟩
    · rw [hout, Op.apply, if_pos hm]
      exact h
    · rw [hout, Op.report, if_pos hm]

theorem Represents.insertOrFind (hfresh : n ∉ s.root.inorder) :
    Simulates key s m (.insertOrFind p n) := by
  rcases h.insert_cases (p := p) hfresh with ⟨hm, root, hins, hrep⟩ | ⟨hm, hins⟩
  · have hout : (Op.insertOrFind p n).perform key s =
        (.okay, ⟨root, (s.fill n p).payload, s.nodeCount⟩) := by
      simp only [Op.perform, AvlSet.insertOrFind, AvlTree.insertOrFind_eq, hins, if_true]
      rfl
    refine ⟨?_, ?_, fun hne => absurd (by rw [hout]) hne⟩
    · rw [hout, Op.apply, hm]
      exact hrep _
    · rw [hout, Op.report, hm]
      rfl
  · have hout : (Op.insertOrFind p n).perform key s = (.cardinalityViolation, s) := by
      simp only [Op.perform, AvlSet.insertOrFind, AvlTree.insertOrFind_eq, hins]
      rfl
    refine ⟨?_, ?_, fun _ => by rw [hout]⟩
    · rw [hout, Op.apply, if_pos hm]
      exact h
    · rw [hout, Op.report, if_pos hm]

theorem Represents.insertBlank (hfresh : n ∉ s.root.inorder) :
    Simulates key s m (.insertBlank (key p) n p) := by
  rcases h.insert_cases (p := p) hfresh with ⟨hm, root, hins, hrep⟩ | ⟨hm, hins⟩
  · have hout : (Op.insertBlank (key p) n p).perform key s =
        (.okay, ⟨root, (s.fill n p).payload, (s.nodeCount + 1) % 2 ^ 64⟩) := by
      simp only [Op.perform, AvlSet.insertBlank, hins]
      rfl
    refine ⟨?_, ?_, fun hne => absurd (by rw [hout]) hne⟩
    · rw [hout, Op.apply, hm]
      exact hrep _
    · rw [hout, Op.report, hm]
      rfl
  · have hout : (Op.insertBlank (key p) n p).perform key s = (.cardinalityViolation, s) := by
      simp only [Op.perform, AvlSet.insertBlank, hins]
    refine ⟨?_, ?_, fun _ => by rw [hout]⟩
    · rw [hout, Op.apply, if_pos hm]
      exact h
    · rw [hout, Op.report, if_pos hm]

theorem Represents.removeIf (k : K) (pred : ν → P → Bool) :
    Simulates key s m (.removeIf k pred) := by
  have hrefused : ∀ {out : HandleResult × AvlSet ν P}, out = (.notFound, s) →
      ((m k).any fun out => pred out.1 out.2) = false →
      (Op.removeIf k pred).perform key s = out → Simulates key s m (.removeIf k pred) := by
    rintro _ rfl hany hout
    refine ⟨?_, ?_, fun _ => by rw [hout]⟩
    · rw [hout, Op.apply, if_neg (by simp [hany])]
      exact h
    · rw [hout, Op.report, if_neg (by simp [hany])]
  rcases h.remove_cases k with ⟨hm, hfind⟩ | ⟨x, hm, hfind, hres, hrep⟩
  · refine hrefused rfl (by rw [hm]; rfl) ?_
    simp only [Op.perform, AvlSet.removeIf, AvlTree.removeIf_of_absent hfind]
    rfl
  · have hany : ((m k).any fun out => pred out.1 out.2) = pred x (s.payload x) := by rw [hm]; rfl
    cases hpred : pred x (s.payload x) with
    | false =>
        refine hrefused rfl (hany.trans hpred) ?_
        simp only [Op.perform, AvlSet.removeIf, AvlTree.removeIf_of_find hfind, hpred]
        rfl
    | true =>
        have hout : (Op.removeIf k pred).perform key s = (.okay,
            ⟨(s.root.remove (s.compareTo key k)).2, s.payload,
              (s.nodeCount + (2 ^ 64 - 1)) % 2 ^ 64⟩) := by
          simp only [Op.perform, AvlSet.removeIf, AvlTree.removeIf_of_find hfind, hpred, if_true]
          cases hrem : s.root.remove (s.compareTo key k) with
          | mk res root =>
              rw [hrem] at hres
              cases hres
              rfl
        refine ⟨?_, ?_, fun hne => absurd (by rw [hout]) hne⟩
        · rw [hout, Op.apply, if_pos (hany.trans hpred)]
          exact hrep _
        · rw [hout, Op.report, if_pos (hany.trans hpred)]

theorem Represents.remove (k : K) : Simulates key s m (.remove k) := by
  have hsame : (Op.remove k).perform key s = (Op.removeIf k fun _ _ => true).perform key s := by
    simp only [Op.perform, AvlSet.remove, AvlSet.removeIf, AvlTree.remove_eq_removeIf]
  have hany : ((m k).any fun _ => true) = (m k).isSome := by cases m k <;> rfl
  have happly : (Op.remove k).apply key m = (Op.removeIf k fun _ _ => true).apply key m := by
    rw [Op.apply, Op.apply, hany]
    split
    next => rfl
    next hnone =>
      rw [Bool.not_eq_true, Option.isSome_eq_false_iff, Option.isNone_iff_eq_none] at hnone
      exact hnone ▸ Function.update_eq_self k m
  have hout := h.removeIf k fun _ _ => true
  refine ⟨?_, ?_, ?_⟩
  · rw [hsame, happly]
    exact hout.represents
  · rw [hsame, hout.result, Op.report, Op.report, hany]
  · rw [hsame]
    exact hout.unchanged

/-- One step, whatever the call. -/
theorem Represents.step (op : Op ν P K) (hvalid : op.Valid key s) : Simulates key s m op := by
  cases op with
  | insert p n => exact h.insert hvalid
  | insertOrFind p n => exact h.insertOrFind hvalid
  | insertBlank k n p =>
      obtain ⟨hfresh, rfl⟩ := hvalid
      exact h.insertBlank hfresh
  | remove k => exact h.remove k
  | removeIf k pred => exact h.removeIf k pred

end Step

/-- The runs of a tree that starts empty, with the set under the same calls. -/
inductive Run (key : P → K) : AvlSet ν P → (K → Option (ν × P)) → Prop
  | empty (payload : ν → P) : Run key ⟨.null, payload, 0⟩ fun _ => none
  | step {s : AvlSet ν P} {m : K → Option (ν × P)} (op : Op ν P K) : Run key s m →
      op.Valid key s → Run key (op.perform key s).2 (op.apply key m)

/-- The tree is a balanced ordered set in every run: it stands for the set under the same
calls, and every call reports what the set says. -/
theorem Run.spec (h : Run key s m) :
    Represents key s m ∧ (∀ k, s.find key k = (m k).map Prod.fst) ∧
      (∀ p n, n ∉ s.root.inorder →
        (s.insertOrFind key p n).2.1 = (m (key p)).map Prod.snd) ∧
      ∀ op : Op ν P K, op.Valid key s → Simulates key s m op := by
  have hrep : Represents key s m := by
    induction h with
    | empty payload =>
        refine ⟨List.Pairwise.nil, trivial, fun k n p => ?_⟩
        exact iff_of_false nofun fun hmem => nomatch hmem.1
    | step op _ hvalid ih => exact (ih.step op hvalid).represents
  refine ⟨hrep, hrep.find_eq, fun p n hfresh => ?_, fun op hvalid => hrep.step op hvalid⟩
  have hfind := hrep.find_eq (key p)
  rw [AvlSet.insertOrFind, AvlTree.insertOrFind_eq]
  rcases hrep.insert_cases (p := p) hfresh with ⟨hm, root, hins, -⟩ | ⟨hm, hins⟩
  · rw [hins, hm]
    rfl
  · rw [hins]
    show Option.map s.payload (s.find key (key p)) = _
    rw [hfind]
    cases hout : m (key p) with
    | none => rfl
    | some out => exact congrArg some ((hrep.contents (key p) out.1 out.2).mp hout).2.1

/-- A key goes in, once. -/
theorem Run.spec_one :
    Run id (⟨.node .null 0 1 .null, Function.update (fun _ => 0) 0 7, 1⟩ : AvlSet ℕ ℕ)
        (Function.update (fun _ => none) 7 (some (0, 7))) ∧
      (⟨.node .null 0 1 .null, Function.update (fun _ => 0) 0 7, 1⟩ : AvlSet ℕ ℕ).find id 7 =
        some 0 := by
  have hrun : Run id (⟨.node .null 0 1 .null, Function.update (fun _ => 0) 0 7, 1⟩ : AvlSet ℕ ℕ)
      (Function.update (fun _ => none) 7 (some (0, 7))) :=
    Run.step (.insert 7 0) (Run.empty fun _ => 0) List.not_mem_nil
  exact ⟨hrun, (Run.spec hrun).2.1 7⟩

end AvlSet

end Beelzebub.Utils
