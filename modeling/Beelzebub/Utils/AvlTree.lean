import Beelzebub.Handles
import Mathlib.Data.List.Basic
import Mathlib.Tactic.Common

/-!
# The AVL tree

The tree of `avl.tree.hpp`.  Nodes are reached through pointers there and keep
their identity for as long as they are in the tree, so a node is labelled here by
its identity: rotations, insertions and removals move labels around and never
copy what a node holds.  A payload is looked up elsewhere, and each operation
takes the comparison of a node with the key as a function on labels (`cmp x` is
`Compare(node->Payload, key)`).

The last part of the module says what the operations do to the in-order sequence
of labels when the comparison is monotone along it: everything before the key
compares `lt`, everything after it `gt`.
-/

namespace Beelzebub.Utils

/-- A possibly null pointer to a node: left child, label, cached height, right
child. -/
inductive AvlTree (α : Type) where
  | null
  | node (left : AvlTree α) (label : α) (height : Nat) (right : AvlTree α)
deriving DecidableEq, Repr

namespace AvlTree

variable {α : Type}

/-- The labels in order. -/
def inorder : AvlTree α → List α
  | null => []
  | node l x _ r => l.inorder ++ x :: r.inorder

/-! ## Heights and rotations -/

def getHeight : AvlTree α → Nat
  | null => 0
  | node _ _ h _ => h

def getBalance : AvlTree α → Int
  | null => 0
  | node l _ _ r => (r.getHeight : Int) - l.getHeight

def computeHeight : AvlTree α → AvlTree α
  | null => null
  | node l x _ r => node l x (max l.getHeight r.getHeight + 1) r

/-- `balance` only calls this on a node whose right child is higher than its left
child, which is therefore not null. -/
def rotateLeft : AvlTree α → AvlTree α
  | node l x h (node rl y rh rr) =>
      computeHeight (node (computeHeight (node l x h rl)) y rh rr)
  | t => t

/-- `balance` only calls this on a node whose left child is higher than its right
child, which is therefore not null. -/
def rotateRight : AvlTree α → AvlTree α
  | node (node ll y lh lr) x h r =>
      computeHeight (node ll y lh (computeHeight (node lr x h r)))
  | t => t

def balance (t : AvlTree α) : AvlTree α :=
  match t.computeHeight with
  | null => null
  | node l x h r =>
      if (node l x h r).getBalance > 1 then
        rotateLeft (node l x h (if r.getBalance < 0 then r.rotateRight else r))
      else if (node l x h r).getBalance < -1 then
        rotateRight (node (if l.getBalance > 0 then l.rotateLeft else l) x h r)
      else node l x h r

/-! ## Operations -/

/-- `Find`: lesser nodes go left, greater nodes go right. -/
def find (cmp : α → Ordering) : AvlTree α → Option α
  | null => none
  | node l x _ r =>
      match cmp x with
      | .eq => some x
      | .gt => l.find cmp
      | .lt => r.find cmp

/-- `Insert`: the new node and the tree with it.  `create` is the outcome of
allocating the node, which happens once the place is found. -/
def insert (cmp : α → Ordering) (create : Except HandleResult α) :
    AvlTree α → Except HandleResult (α × AvlTree α)
  | null => create.map fun x => (x, node null x 1 null)
  | node l x h r =>
      match cmp x with
      | .eq => .error .cardinalityViolation
      | .gt => (l.insert cmp create).map fun (y, l') => (y, (node l' x h r).balance)
      | .lt => (r.insert cmp create).map fun (y, r') => (y, (node l x h r').balance)

/-- `RemoveMinimum`: the label of the detached node and the remaining tree. -/
def removeMinimum : AvlTree α → Option α × AvlTree α
  | null => (none, null)
  | node null x _ r => (some x, r)
  | node l x h r =>
      let (res, l') := l.removeMinimum
      (res, (node l' x h r).balance)

/-- What `Remove` leaves in the place of the node it detaches.  A node with two
children is replaced by its successor, which takes over its height. -/
def removeRoot (l : AvlTree α) (h : Nat) (r : AvlTree α) : AvlTree α :=
  match l, r with
  | null, null => null
  | null, r => r.balance
  | l, null => l.balance
  | l, r =>
      match r.removeMinimum with
      | (some y, r') => (node l y h r').balance
      | (none, r') => r'

/-- `Remove`: the label of the detached node, if any, and the remaining tree. -/
def remove (cmp : α → Ordering) : AvlTree α → Option α × AvlTree α
  | null => (none, null)
  | node l x h r =>
      match cmp x with
      | .gt =>
          match l.remove cmp with
          | (none, l') => (none, node l' x h r)
          | (some y, l') => (some y, (node l' x h r).balance)
      | .lt =>
          match r.remove cmp with
          | (none, r') => (none, node l x h r')
          | (some y, r') => (some y, (node l x h r').balance)
      | .eq => (some x, removeRoot l h r)

/-! ## The in-order sequence -/

@[simp] theorem inorder_null : (null : AvlTree α).inorder = [] := rfl

@[simp] theorem inorder_node (l r : AvlTree α) (x : α) (h : Nat) :
    (node l x h r).inorder = l.inorder ++ x :: r.inorder := rfl

@[simp] theorem inorder_computeHeight (t : AvlTree α) : t.computeHeight.inorder = t.inorder := by
  cases t <;> rfl

@[simp] theorem inorder_rotateLeft (t : AvlTree α) : t.rotateLeft.inorder = t.inorder := by
  unfold rotateLeft
  split <;> simp

@[simp] theorem inorder_rotateRight (t : AvlTree α) : t.rotateRight.inorder = t.inorder := by
  unfold rotateRight
  split <;> simp

@[simp] theorem inorder_balance (t : AvlTree α) : t.balance.inorder = t.inorder := by
  have hc := inorder_computeHeight t
  unfold balance
  split
  next he => rw [← hc, he]
  next l x h r he =>
    rw [he] at hc
    rw [← hc]
    split
    · split <;> simp
    · split
      · split <;> simp
      · rfl

theorem removeMinimum_node {l r : AvlTree α} {x : α} {h : Nat} (hl : l ≠ null) :
    (node l x h r).removeMinimum =
      (l.removeMinimum.1, (node l.removeMinimum.2 x h r).balance) := by
  cases l with
  | null => exact absurd rfl hl
  | node _ _ _ _ => rfl

/-- The minimum is the first label of the sequence. -/
theorem inorder_removeMinimum (t : AvlTree α) :
    t.removeMinimum.1 = t.inorder.head? ∧ t.removeMinimum.2.inorder = t.inorder.tail := by
  induction t with
  | null => exact ⟨rfl, rfl⟩
  | node l x h r ihl ihr =>
      by_cases hl : l = null
      · subst hl
        exact ⟨rfl, rfl⟩
      · have hne : l.inorder ≠ [] := by
          cases l with
          | null => exact absurd rfl hl
          | node _ _ _ _ => simp
        rw [removeMinimum_node hl]
        obtain ⟨y, ys, hy⟩ := List.exists_cons_of_ne_nil hne
        simp [ihl.1, ihl.2, hy]

theorem inorder_removeRoot (l r : AvlTree α) (h : Nat) :
    (removeRoot l h r).inorder = l.inorder ++ r.inorder := by
  cases l with
  | null => cases r <;> simp [removeRoot]
  | node ll x lh lr =>
      cases r with
      | null => simp [removeRoot]
      | node rl y rh rr =>
          obtain ⟨h1, h2⟩ := inorder_removeMinimum (node rl y rh rr)
          cases hm : (node rl y rh rr).removeMinimum with
          | mk o r' =>
              rw [hm] at h1 h2
              cases hi : (node rl y rh rr).inorder with
              | nil => simp at hi
              | cons z zs =>
                  rw [hi] at h1 h2
                  simp only [List.head?_cons] at h1
                  subst h1
                  simp [removeRoot, hm, h2]

/-- A node that is found is in the tree and compares equal. -/
theorem mem_of_find {cmp : α → Ordering} {t : AvlTree α} {x : α} (h : t.find cmp = some x) :
    x ∈ t.inorder ∧ cmp x = .eq := by
  induction t with
  | null => cases h
  | node l y hh r ihl ihr =>
      rw [find] at h
      split at h
      next hy =>
        cases h
        exact ⟨by simp, hy⟩
      next =>
        obtain ⟨hm, hx⟩ := ihl h
        exact ⟨by simp [hm], hx⟩
      next =>
        obtain ⟨hm, hx⟩ := ihr h
        exact ⟨by simp [hm], hx⟩

/-! ## Position of a node relative to the key -/

/-- A node below the key belongs to the part before the key. -/
theorem append_cons_of_lt {cmp : α → Ordering} {l r A B : List α} {x : α}
    (h : l ++ x :: r = A ++ B) (hx : cmp x = .lt) (hB : ∀ b ∈ B, cmp b ≠ .lt) :
    ∃ A', A = l ++ x :: A' ∧ r = A' ++ B := by
  rcases List.append_eq_append_iff.mp h with ⟨C, rfl, hC⟩ | ⟨C, rfl, hC⟩
  · cases C with
    | nil =>
        rw [List.nil_append] at hC
        exact absurd hx (hB x (by rw [← hC]; exact List.mem_cons_self))
    | cons c C =>
        rw [List.cons_append, List.cons.injEq] at hC
        obtain ⟨rfl, rfl⟩ := hC
        exact ⟨C, rfl, rfl⟩
  · exact absurd hx (hB x (by rw [hC]; simp))

/-- A node above the key belongs to the part after the key. -/
theorem append_cons_of_gt {cmp : α → Ordering} {l r A B : List α} {x : α}
    (h : l ++ x :: r = A ++ B) (hx : cmp x = .gt) (hA : ∀ a ∈ A, cmp a ≠ .gt) :
    ∃ B', B = B' ++ x :: r ∧ l = A ++ B' := by
  rcases List.append_eq_append_iff.mp h with ⟨C, rfl, hC⟩ | ⟨C, rfl, hC⟩
  · cases C with
    | nil => exact ⟨[], by simpa using hC.symm, by simp⟩
    | cons c C =>
        rw [List.cons_append, List.cons.injEq] at hC
        exact absurd hx (hA x (by rw [hC.1]; simp))
  · exact ⟨C, hC, rfl⟩

section Found

variable {cmp : α → Ordering} {A B : List α} {x : α}

/-- The node at the key is where the sequence says it is. -/
theorem append_cons_of_eq {l r : List α} {y : α} (h : l ++ y :: r = A ++ x :: B)
    (hy : cmp y = .eq) (hA : ∀ a ∈ A, cmp a = .lt) (hB : ∀ b ∈ B, cmp b = .gt) :
    l = A ∧ y = x ∧ r = B := by
  rcases List.append_eq_append_iff.mp h with ⟨C, rfl, hC⟩ | ⟨C, rfl, hC⟩
  · cases C with
    | nil =>
        rw [List.nil_append, List.cons.injEq] at hC
        exact ⟨by simp, hC.1, hC.2⟩
    | cons c C =>
        rw [List.cons_append, List.cons.injEq] at hC
        have := hA y (by rw [hC.1]; simp)
        rw [hy] at this
        cases this
  · cases C with
    | nil =>
        rw [List.nil_append, List.cons.injEq] at hC
        exact ⟨by simp, hC.1.symm, hC.2.symm⟩
    | cons c C =>
        rw [List.cons_append, List.cons.injEq] at hC
        have := hB y (by rw [hC.2]; simp)
        rw [hy] at this
        cases this

theorem find_eq_some {t : AvlTree α} (h : t.inorder = A ++ x :: B)
    (hA : ∀ a ∈ A, cmp a = .lt) (hx : cmp x = .eq) (hB : ∀ b ∈ B, cmp b = .gt) :
    t.find cmp = some x := by
  induction t generalizing A B with
  | null => simp at h
  | node l y hh r ihl ihr =>
      rw [inorder_node] at h
      rw [find]
      cases hy : cmp y with
      | eq => rw [(append_cons_of_eq h hy hA hB).2.1]
      | lt =>
          obtain ⟨A', rfl, hr⟩ := append_cons_of_lt h hy (by
            intro b hb
            rcases List.mem_cons.mp hb with rfl | hb
            · rw [hx]; decide
            · rw [hB b hb]; decide)
          exact ihr hr (fun a ha => hA a (by simp [ha])) hB
      | gt =>
          obtain ⟨B', hB', hl⟩ := append_cons_of_gt h hy (fun a ha => by rw [hA a ha]; decide)
          cases B' with
          | nil =>
              rw [List.nil_append, List.cons.injEq] at hB'
              rw [← hB'.1, hx] at hy
              cases hy
          | cons b B' =>
              rw [List.cons_append, List.cons.injEq] at hB'
              obtain ⟨rfl, rfl⟩ := hB'
              exact ihl hl hA (fun b hb => hB b (by simp [hb]))

theorem inorder_remove (cmp : α → Ordering) {t : AvlTree α} (h : t.inorder = A ++ x :: B)
    (hA : ∀ a ∈ A, cmp a = .lt) (hx : cmp x = .eq) (hB : ∀ b ∈ B, cmp b = .gt) :
    (t.remove cmp).1 = some x ∧ (t.remove cmp).2.inorder = A ++ B := by
  induction t generalizing A B with
  | null => simp at h
  | node l y hh r ihl ihr =>
      rw [inorder_node] at h
      rw [remove]
      cases hy : cmp y with
      | eq =>
          obtain ⟨rfl, rfl, rfl⟩ := append_cons_of_eq h hy hA hB
          exact ⟨rfl, inorder_removeRoot _ _ _⟩
      | lt =>
          obtain ⟨A', rfl, hr⟩ := append_cons_of_lt h hy (by
            intro b hb
            rcases List.mem_cons.mp hb with rfl | hb
            · rw [hx]; decide
            · rw [hB b hb]; decide)
          obtain ⟨h1, h2⟩ := ihr hr (fun a ha => hA a (by simp [ha])) hB
          cases he : r.remove cmp with
          | mk o r' =>
              rw [he] at h1 h2
              simp only at h1 h2
              subst h1
              simp [h2]
      | gt =>
          obtain ⟨B', hB', hl⟩ := append_cons_of_gt h hy (fun a ha => by rw [hA a ha]; decide)
          cases B' with
          | nil =>
              rw [List.nil_append, List.cons.injEq] at hB'
              rw [← hB'.1, hx] at hy
              cases hy
          | cons b B' =>
              rw [List.cons_append, List.cons.injEq] at hB'
              obtain ⟨rfl, rfl⟩ := hB'
              obtain ⟨h1, h2⟩ := ihl hl hA (fun b hb => hB b (by simp [hb]))
              cases he : l.remove cmp with
              | mk o l' =>
                  rw [he] at h1 h2
                  simp only at h1 h2
                  subst h1
                  simp [h2]

end Found

section Absent

variable {cmp : α → Ordering} {A B : List α}

theorem lt_or_gt_of_absent {l r : List α} {y : α} (h : l ++ y :: r = A ++ B)
    (hA : ∀ a ∈ A, cmp a = .lt) (hB : ∀ b ∈ B, cmp b = .gt) : cmp y = .lt ∨ cmp y = .gt := by
  have hmem : y ∈ A ++ B := by rw [← h]; simp
  rcases List.mem_append.mp hmem with hy | hy
  · exact Or.inl (hA y hy)
  · exact Or.inr (hB y hy)

theorem find_eq_none {t : AvlTree α} (h : t.inorder = A ++ B)
    (hA : ∀ a ∈ A, cmp a = .lt) (hB : ∀ b ∈ B, cmp b = .gt) : t.find cmp = none := by
  induction t generalizing A B with
  | null => rfl
  | node l y hh r ihl ihr =>
      rw [inorder_node] at h
      rw [find]
      rcases lt_or_gt_of_absent h hA hB with hy | hy
      · obtain ⟨A', rfl, hr⟩ := append_cons_of_lt h hy (fun b hb => by rw [hB b hb]; decide)
        rw [hy]
        exact ihr hr (fun a ha => hA a (by simp [ha])) hB
      · obtain ⟨B', rfl, hl⟩ := append_cons_of_gt h hy (fun a ha => by rw [hA a ha]; decide)
        rw [hy]
        exact ihl hl hA (fun b hb => hB b (by simp [hb]))

/-- Insertion puts the new label between the labels below and above the key. -/
theorem inorder_insert (cmp : α → Ordering) {t : AvlTree α} (h : t.inorder = A ++ B)
    (hA : ∀ a ∈ A, cmp a = .lt) (hB : ∀ b ∈ B, cmp b = .gt) (x : α) :
    ∃ t', t.insert cmp (.ok x) = .ok (x, t') ∧ t'.inorder = A ++ x :: B := by
  induction t generalizing A B with
  | null =>
      rw [inorder_null] at h
      obtain ⟨rfl, rfl⟩ := List.append_eq_nil_iff.mp h.symm
      exact ⟨_, rfl, rfl⟩
  | node l y hh r ihl ihr =>
      rw [inorder_node] at h
      rw [insert]
      rcases lt_or_gt_of_absent h hA hB with hy | hy
      · obtain ⟨A', rfl, hr⟩ := append_cons_of_lt h hy (fun b hb => by rw [hB b hb]; decide)
        obtain ⟨r', h1, h2⟩ := ihr hr (fun a ha => hA a (by simp [ha])) hB
        refine ⟨(node l y hh r').balance, ?_, by simp [h2]⟩
        simp only [hy, h1, Except.map]
      · obtain ⟨B', rfl, hl⟩ := append_cons_of_gt h hy (fun a ha => by rw [hA a ha]; decide)
        obtain ⟨l', h1, h2⟩ := ihl hl hA (fun b hb => hB b (by simp [hb]))
        refine ⟨(node l' y hh r).balance, ?_, by simp [h2]⟩
        simp only [hy, h1, Except.map]

/-- When no node can be allocated, the failure is reported. -/
theorem insert_error (cmp : α → Ordering) {t : AvlTree α} (h : t.inorder = A ++ B)
    (hA : ∀ a ∈ A, cmp a = .lt) (hB : ∀ b ∈ B, cmp b = .gt) (e : HandleResult) :
    t.insert cmp (.error e) = .error e := by
  induction t generalizing A B with
  | null => rfl
  | node l y hh r ihl ihr =>
      rw [inorder_node] at h
      rw [insert]
      rcases lt_or_gt_of_absent h hA hB with hy | hy
      · obtain ⟨A', rfl, hr⟩ := append_cons_of_lt h hy (fun b hb => by rw [hB b hb]; decide)
        rw [hy]
        simp only [ihr hr (fun a ha => hA a (by simp [ha])) hB, Except.map]
      · obtain ⟨B', rfl, hl⟩ := append_cons_of_gt h hy (fun a ha => by rw [hA a ha]; decide)
        rw [hy]
        simp only [ihl hl hA (fun b hb => hB b (by simp [hb])), Except.map]

end Absent

/-! ## The number of nodes

These hold for every comparison, also one that the order of the tree has nothing to do
with. -/

/-- An insertion that succeeds adds the node it was given. -/
theorem length_insert {cmp : α → Ordering} {create : Except HandleResult α} {t t' : AvlTree α}
    {y : α} (h : t.insert cmp create = .ok (y, t')) :
    create = .ok y ∧ t'.inorder.length = t.inorder.length + 1 := by
  induction t generalizing t' with
  | null =>
      cases create with
      | error e => cases h
      | ok x =>
          cases h
          exact ⟨rfl, rfl⟩
  | node l x n r ihl ihr =>
      rw [insert] at h
      split at h
      next => cases h
      next =>
        cases hl : l.insert cmp create with
        | error e => rw [hl] at h; cases h
        | ok out =>
            rw [hl] at h
            cases h
            obtain ⟨h1, h2⟩ := ihl hl
            refine ⟨h1, ?_⟩
            simp [h2]
            omega
      next =>
        cases hr : r.insert cmp create with
        | error e => rw [hr] at h; cases h
        | ok out =>
            rw [hr] at h
            cases h
            obtain ⟨h1, h2⟩ := ihr hr
            refine ⟨h1, ?_⟩
            simp [h2]
            omega

/-- An insertion fails because of a node that compares equal, or for want of a node. -/
theorem error_insert {cmp : α → Ordering} {create : Except HandleResult α} {t : AvlTree α}
    {e : HandleResult} (h : t.insert cmp create = .error e) :
    e = .cardinalityViolation ∨ create = .error e := by
  induction t with
  | null =>
      cases create with
      | error e' =>
          cases h
          exact Or.inr rfl
      | ok x => cases h
  | node l x n r ihl ihr =>
      rw [insert] at h
      split at h
      next =>
        cases h
        exact Or.inl rfl
      next =>
        cases hl : l.insert cmp create with
        | error e' =>
            rw [hl] at h
            cases h
            exact ihl hl
        | ok out => rw [hl] at h; cases h
      next =>
        cases hr : r.insert cmp create with
        | error e' =>
            rw [hr] at h
            cases h
            exact ihr hr
        | ok out => rw [hr] at h; cases h

theorem length_remove_le (cmp : α → Ordering) (t : AvlTree α) :
    (t.remove cmp).2.inorder.length ≤ t.inorder.length := by
  induction t with
  | null => exact Nat.le_refl _
  | node l x n r ihl ihr =>
      rw [remove]
      split
      next =>
        split
        next l' hl =>
          rw [hl] at ihl
          simp only [inorder_node, List.length_append, List.length_cons] at ihl ⊢
          omega
        next y l' hl =>
          rw [hl] at ihl
          simp only [inorder_balance, inorder_node, List.length_append, List.length_cons] at ihl ⊢
          omega
      next =>
        split
        next r' hr =>
          rw [hr] at ihr
          simp only [inorder_node, List.length_append, List.length_cons] at ihr ⊢
          omega
        next y r' hr =>
          rw [hr] at ihr
          simp only [inorder_balance, inorder_node, List.length_append, List.length_cons] at ihr ⊢
          omega
      next =>
        simp only [inorder_removeRoot, inorder_node, List.length_append, List.length_cons]
        omega

end AvlTree

end Beelzebub.Utils
