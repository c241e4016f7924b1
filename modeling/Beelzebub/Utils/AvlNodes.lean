import Beelzebub.Utils.AvlBalance
import Mathlib.Data.List.Nodup
import Mathlib.Data.Nat.Notation
import Mathlib.Logic.Function.Basic

/-!
# The nodes of an AVL tree in memory

The nodes as they are: each has an address, with the pointers to its children, its height and
its payload behind it, and a null pointer is zero.  What is passed by reference in the code is a
link, which is read at the beginning and written at the end; here an operation takes the pointer
in the link and gives back the one that is in it afterwards.

A pointer is the root of a tree (`Shape`) whose labels are the addresses of the nodes.  The
operations on memory do to the tree what the operations on trees do, and leave all other nodes
alone.
-/

namespace Beelzebub.Utils

namespace AvlTree

variable {α : Type}

/-- Left and right are exchanged. -/
def mirror : AvlTree α → AvlTree α
  | null => null
  | node l x h r => node r.mirror x h l.mirror

@[simp] theorem mirror_mirror (t : AvlTree α) : t.mirror.mirror = t := by
  induction t with
  | null => rfl
  | node l x h r ihl ihr => rw [mirror, mirror, ihl, ihr]

@[simp] theorem getHeight_mirror (t : AvlTree α) : t.mirror.getHeight = t.getHeight := by
  cases t with
  | null => rfl
  | node l x h r => rfl

theorem inorder_mirror (t : AvlTree α) : t.mirror.inorder = t.inorder.reverse := by
  induction t with
  | null => rfl
  | node l x h r ihl ihr => simp [mirror, ihl, ihr]

theorem getHeight_node (l r : AvlTree α) (x : α) (h : ℕ) : (node l x h r).getHeight = h := rfl

theorem computeHeight_node (l r : AvlTree α) (x : α) (h : ℕ) :
    (node l x h r).computeHeight = node l x (max l.getHeight r.getHeight + 1) r := rfl

theorem rotateRight_eq_mirror (t : AvlTree α) : t.rotateRight = t.mirror.rotateLeft.mirror := by
  rcases t with _ | ⟨_ | ⟨ll, y, lh, lr⟩, x, h, r⟩
  · rfl
  · simp [rotateRight, rotateLeft, mirror]
  · simp [rotateRight, rotateLeft, mirror, computeHeight_node, getHeight_node, Nat.max_comm]

end AvlTree

/-- The fields of the nodes at all addresses. -/
structure AvlNodes (P : Type) where
  left : ℕ → ℕ
  right : ℕ → ℕ
  height : ℕ → ℕ
  payload : ℕ → P

namespace AvlNodes

variable {P : Type}

/-! ## The code -/

def setLeft (n p : ℕ) (m : AvlNodes P) : AvlNodes P :=
  { m with left := Function.update m.left n p }

def setRight (n p : ℕ) (m : AvlNodes P) : AvlNodes P :=
  { m with right := Function.update m.right n p }

def setHeight (n h : ℕ) (m : AvlNodes P) : AvlNodes P :=
  { m with height := Function.update m.height n h }

def setPayload (n : ℕ) (p : P) (m : AvlNodes P) : AvlNodes P :=
  { m with payload := Function.update m.payload n p }

def getHeight (m : AvlNodes P) (dis : ℕ) : ℕ := if dis = 0 then 0 else m.height dis

def getBalance (m : AvlNodes P) (dis : ℕ) : Int :=
  if dis = 0 then 0 else (m.getHeight (m.right dis) : Int) - m.getHeight (m.left dis)

def computeHeight (dis : ℕ) (m : AvlNodes P) : AvlNodes P :=
  m.setHeight dis (max (m.getHeight (m.left dis)) (m.getHeight (m.right dis)) + 1)

/-- `RotateLeft`: the node that replaces this one. -/
def rotateLeft (dis : ℕ) (m : AvlNodes P) : ℕ × AvlNodes P :=
  let right := m.right dis
  let m := (m.setRight dis (m.left right)).setLeft right dis
  (right, (m.computeHeight dis).computeHeight right)

def rotateRight (dis : ℕ) (m : AvlNodes P) : ℕ × AvlNodes P :=
  let left := m.left dis
  let m := (m.setLeft dis (m.right left)).setRight left dis
  (left, (m.computeHeight dis).computeHeight left)

/-- `Balance`: the node that replaces this one. -/
def balance (dis : ℕ) (m : AvlNodes P) : ℕ × AvlNodes P :=
  let m := m.computeHeight dis
  let balance := m.getBalance dis
  if balance > 1 then
    if m.getBalance (m.right dis) < 0 then
      let (right, m) := m.rotateRight (m.right dis)
      (m.setRight dis right).rotateLeft dis
    else m.rotateLeft dis
  else if balance < -1 then
    if m.getBalance (m.left dis) > 0 then
      let (left, m) := m.rotateLeft (m.left dis)
      (m.setLeft dis left).rotateRight dis
    else m.rotateRight dis
  else (dis, m)

/-- `Create`, with a payload or without.  What is in the link is null, and what is in it
afterwards is up to `AllocateNode`. -/
def create (allocateNode : ℕ → HandleResult × ℕ) (payload : Option P) (m : AvlNodes P) :
    HandleResult × ℕ × AvlNodes P :=
  match allocateNode 0 with
  | (.okay, node) =>
      let m := ((m.setLeft node 0).setRight node 0).setHeight node 1
      (.okay, node, payload.elim m fun p => m.setPayload node p)
  | (res, node) => (res, node, m)

/-- What an insertion leaves: the result, the pointer in the link, the node that is new or in the
way, and the nodes. -/
structure Inserted (P : Type) where
  result : HandleResult
  link : ℕ
  place : ℕ
  nodes : AvlNodes P

/-- The recursion of the insertions, so many levels deep. -/
def insertNode (compare : P → Ordering) (create : AvlNodes P → HandleResult × ℕ × AvlNodes P) :
    ℕ → ℕ → AvlNodes P → Option (Inserted P)
  | 0, _, _ => none
  | levels + 1, node, m =>
      if node = 0 then
        let (res, new, m) := create m
        some ⟨res, new, new, m⟩
      else
        match compare (m.payload node) with
        | .eq => some ⟨.cardinalityViolation, node, node, m⟩
        | .gt => (insertNode compare create levels (m.left node) m).map fun out =>
            let m := out.nodes.setLeft node out.link
            if out.result = .okay then
              { out with link := (m.balance node).1, nodes := (m.balance node).2 }
            else { out with link := node, nodes := m }
        | .lt => (insertNode compare create levels (m.right node) m).map fun out =>
            let m := out.nodes.setRight node out.link
            if out.result = .okay then
              { out with link := (m.balance node).1, nodes := (m.balance node).2 }
            else { out with link := node, nodes := m }

/-- What a removal leaves: the node that was taken out, the pointer in the link and the nodes. -/
structure Removed (P : Type) where
  node : ℕ
  link : ℕ
  nodes : AvlNodes P

/-- `RemoveMinimum`. -/
def removeMinimum : ℕ → ℕ → AvlNodes P → Option (Removed P)
  | 0, _, _ => none
  | levels + 1, node, m =>
      if node = 0 then some ⟨0, 0, m⟩
      else if m.left node = 0 then some ⟨node, m.right node, m⟩
      else
        (removeMinimum levels (m.left node) m).map fun out =>
          let (replacement, m) := (out.nodes.setLeft node out.link).balance node
          ⟨out.node, replacement, m⟩

/-- The successor of a node takes over its children and its height. -/
def takeOver (temp find : ℕ) (m : AvlNodes P) : AvlNodes P :=
  ((m.setLeft temp (m.left find)).setRight temp (m.right find)).setHeight temp (m.height find)

/-- What `Remove` and `RemoveIf` leave in the place of the node that they take out. -/
def removeRoot (levels find : ℕ) (m : AvlNodes P) : Option (ℕ × AvlNodes P) :=
  if m.left find = 0 then
    if m.right find = 0 then some (0, m) else some (m.balance (m.right find))
  else if m.right find = 0 then some (m.balance (m.left find))
  else
    (removeMinimum levels (m.right find) m).map fun out =>
      ((out.nodes.setRight find out.link).takeOver out.node find).balance out.node

/-- The recursion of the removals, so many levels deep. -/
def removeNode (compare : P → Ordering) (pred : ℕ → P → Bool) :
    ℕ → ℕ → AvlNodes P → Option (Removed P)
  | 0, _, _ => none
  | levels + 1, node, m =>
      if node = 0 then some ⟨0, 0, m⟩
      else
        match compare (m.payload node) with
        | .gt => (removeNode compare pred levels (m.left node) m).map fun out =>
            let m := out.nodes.setLeft node out.link
            if out.node ≠ 0 then ⟨out.node, (m.balance node).1, (m.balance node).2⟩
            else ⟨0, node, m⟩
        | .lt => (removeNode compare pred levels (m.right node) m).map fun out =>
            let m := out.nodes.setRight node out.link
            if out.node ≠ 0 then ⟨out.node, (m.balance node).1, (m.balance node).2⟩
            else ⟨0, node, m⟩
        | .eq =>
            if pred node (m.payload node) then
              (removeRoot levels node m).map fun out => ⟨node, out.1, out.2⟩
            else some ⟨0, node, m⟩

/-- The recursion of `Clear`, so many levels deep: the result, and the nodes in the order in which
they are given to `RemoveNode`, which answers with `release`. -/
def clear (release : ℕ → HandleResult) : ℕ → ℕ → AvlNodes P → Option (HandleResult × List ℕ)
  | 0, _, _ => none
  | levels + 1, node, m =>
      if node = 0 then some (.okay, [])
      else
        (clear release levels (m.left node) m).bind fun (res1, xs) =>
          (clear release levels (m.right node) m).bind fun (res2, ys) =>
            some (if res1 = .okay then if res2 = .okay then release node else res2 else res1,
              xs ++ ys ++ [node])

/-! ## Trees in memory -/

/-- The pointer is the root of this tree of nodes. -/
def Shape (m : AvlNodes P) : ℕ → AvlTree ℕ → Prop
  | p, .null => p = 0
  | p, .node l x h r => p = x ∧ x ≠ 0 ∧ m.height x = h ∧ Shape m (m.left x) l ∧ Shape m (m.right x) r

/-- The links and heights of all other nodes are the same. -/
def Keeps (m m' : AvlNodes P) (xs : List ℕ) : Prop :=
  ∀ y, y ∉ xs → m'.left y = m.left y ∧ m'.right y = m.right y ∧ m'.height y = m.height y

variable {m m' m'' : AvlNodes P} {p n v x y h rh : ℕ} {t l r rl rr : AvlTree ℕ} {xs ys : List ℕ}

open AvlTree

theorem Keeps.refl (m : AvlNodes P) (xs : List ℕ) : Keeps m m xs := fun _ _ => ⟨rfl, rfl, rfl⟩

theorem Keeps.trans (h₁ : Keeps m m' xs) (h₂ : Keeps m' m'' xs) : Keeps m m'' xs := by
  intro y hy
  obtain ⟨hl, hr, hh⟩ := h₁ y hy
  obtain ⟨hl', hr', hh'⟩ := h₂ y hy
  exact ⟨hl'.trans hl, hr'.trans hr, hh'.trans hh⟩

theorem Keeps.mono (hk : Keeps m m' xs) (hsub : ∀ y ∈ xs, y ∈ ys) : Keeps m m' ys :=
  fun y hy => hk y fun hx => hy (hsub y hx)

theorem keeps_setLeft (hn : n ∈ xs) : Keeps m (m.setLeft n v) xs :=
  fun _ hy => ⟨Function.update_of_ne (ne_of_mem_of_not_mem hn hy).symm .., rfl, rfl⟩

theorem keeps_setRight (hn : n ∈ xs) : Keeps m (m.setRight n v) xs :=
  fun _ hy => ⟨rfl, Function.update_of_ne (ne_of_mem_of_not_mem hn hy).symm .., rfl⟩

theorem keeps_setHeight (hn : n ∈ xs) : Keeps m (m.setHeight n v) xs :=
  fun _ hy => ⟨rfl, rfl, Function.update_of_ne (ne_of_mem_of_not_mem hn hy).symm ..⟩

theorem keeps_setPayload (m : AvlNodes P) {q : P} : Keeps m (m.setPayload n q) [] :=
  fun _ _ => ⟨rfl, rfl, rfl⟩

/-- A tree is where it was if its nodes are kept. -/
theorem Shape.keeps (hs : Shape m p t) (hk : Keeps m m' xs) (hx : ∀ y ∈ t.inorder, y ∉ xs) :
    Shape m' p t := by
  induction t generalizing p with
  | null => exact hs
  | node l x h r ihl ihr =>
      obtain ⟨rfl, hx0, hh, hl, hr⟩ := hs
      obtain ⟨hkl, hkr, hkh⟩ := hk p (hx p (by simp))
      refine ⟨rfl, hx0, hkh.trans hh, ?_, ?_⟩
      · rw [hkl]
        exact ihl hl fun y hy => hx y (by simp [hy])
      · rw [hkr]
        exact ihr hr fun y hy => hx y (by simp [hy])

theorem Shape.getHeight_eq (hs : Shape m p t) : m.getHeight p = t.getHeight := by
  cases t with
  | null => exact if_pos hs
  | node l x h r =>
      obtain ⟨rfl, hx0, hh, -⟩ := hs
      exact (if_neg hx0).trans hh

theorem Shape.getBalance_eq (hs : Shape m p t) : m.getBalance p = t.getBalance := by
  cases t with
  | null =>
      cases hs
      rfl
  | node l x h r =>
      obtain ⟨rfl, hx0, -, hl, hr⟩ := hs
      rw [getBalance, if_neg hx0, hl.getHeight_eq, hr.getHeight_eq]
      rfl

theorem Shape.eq_zero (hs : Shape m p t) : p = 0 ↔ t = null := by
  cases t with
  | null => exact iff_of_true hs rfl
  | node l x h r =>
      obtain ⟨rfl, hx0, -⟩ := hs
      exact iff_of_false hx0 nofun

theorem Shape.zero_notMem (hs : Shape m p t) : 0 ∉ t.inorder := by
  induction t generalizing p with
  | null => exact List.not_mem_nil
  | node l x h r ihl ihr =>
      obtain ⟨-, hx0, -, hl, hr⟩ := hs
      simp [ihl hl, ihr hr, hx0.symm]

/-- There is one tree at most. -/
theorem Shape.unique {t' : AvlTree ℕ} (hs : Shape m p t) (hs' : Shape m p t') : t = t' := by
  induction t generalizing p t' with
  | null => exact (hs'.eq_zero.mp hs).symm
  | node l x h r ihl ihr =>
      cases t' with
      | null => exact hs.eq_zero.mp hs'
      | node l' x' h' r' =>
          obtain ⟨rfl, -, rfl, hl, hr⟩ := hs
          obtain ⟨rfl, -, rfl, hl', hr'⟩ := hs'
          rw [ihl hl hl', ihr hr hr']

/-- The nodes of a tree with a root are distinct if those of the children are and the root is
none of them. -/
theorem nodup_node : (node l x h r).inorder.Nodup ↔
    l.inorder.Nodup ∧ r.inorder.Nodup ∧ x ∉ l.inorder ∧ x ∉ r.inorder ∧
      ∀ y ∈ l.inorder, y ∉ r.inorder := by
  rw [inorder_node, List.nodup_append, List.nodup_cons]
  simp only [List.mem_cons]
  constructor
  · rintro ⟨hl, ⟨hx, hr⟩, hd⟩
    exact ⟨hl, hr, fun hm => hd x hm x (Or.inl rfl) rfl, hx,
      fun y hy hy' => hd y hy y (Or.inr hy') rfl⟩
  · rintro ⟨hl, hr, hxl, hxr, hd⟩
    refine ⟨hl, ⟨hxr, hr⟩, fun a ha b hb he => ?_⟩
    rcases hb with rfl | hb
    · exact hxl (he ▸ ha)
    · exact hd a ha (he ▸ hb)

/-- The height of the root is computed. -/
theorem Shape.computeHeight (hs : Shape m x (node l x h r))
    (hxl : x ∉ l.inorder) (hxr : x ∉ r.inorder) :
    Shape (m.computeHeight x) x (node l x h r).computeHeight ∧
      Keeps m (m.computeHeight x) [x] := by
  obtain ⟨-, hx0, -, hl, hr⟩ := hs
  have hk : Keeps m (m.computeHeight x) [x] := keeps_setHeight (List.mem_singleton_self x)
  refine ⟨⟨rfl, hx0, ?_, ?_, ?_⟩, hk⟩
  · rw [← hl.getHeight_eq, ← hr.getHeight_eq]
    exact Function.update_self ..
  · exact hl.keeps hk fun y hy he => hxl (List.mem_singleton.mp he ▸ hy)
  · exact hr.keeps hk fun y hy he => hxr (List.mem_singleton.mp he ▸ hy)

/-! ## Rotations -/

theorem Shape.rotateLeft (hs : Shape m x (node l x h (node rl y rh rr)))
    (hn : (node l x h (node rl y rh rr)).inorder.Nodup) :
    Shape (m.rotateLeft x).2 (m.rotateLeft x).1
        (AvlTree.rotateLeft (node l x h (node rl y rh rr))) ∧
      Keeps m (m.rotateLeft x).2 [x, y] := by
  obtain ⟨-, hx0, hh, hl, hy, hy0, hyh, hrl, hrr⟩ := hs
  obtain ⟨-, hnr, hxl, hxr, hd⟩ := nodup_node.mp hn
  obtain ⟨-, -, hyl, hyr, hdr⟩ := nodup_node.mp hnr
  simp only [inorder_node, List.mem_append, List.mem_cons, not_or] at hxr hd
  obtain ⟨hxrl, hxy, hxrr⟩ := hxr
  have hylft : y ∉ l.inorder := fun hm => (hd y hm).2.1 rfl
  have hk₁ : Keeps m ((m.setRight x (m.left y)).setLeft y x) [x, y] :=
    (keeps_setRight (by simp)).trans (keeps_setLeft (by simp))
  generalize hm₁ : (m.setRight x (m.left y)).setLeft y x = m₁ at hk₁
  have hout : ∀ {s : AvlTree ℕ}, x ∉ s.inorder → y ∉ s.inorder →
      ∀ z ∈ s.inorder, z ∉ [x, y] := by
    intro s hxs hys z hz he
    simp only [List.mem_cons, List.not_mem_nil, or_false] at he
    rcases he with rfl | rfl
    · exact hxs hz
    · exact hys hz
  have hleft : Shape m₁ x (node l x h rl) := by
    refine ⟨rfl, hx0, ?_, ?_, ?_⟩
    · rw [← hm₁]
      exact hh
    · have hlx : m₁.left x = m.left x := by
        rw [← hm₁]
        exact Function.update_of_ne hxy ..
      rw [hlx]
      exact hl.keeps hk₁ (hout hxl hylft)
    · have hrx : m₁.right x = m.left y := by
        rw [← hm₁]
        exact Function.update_self ..
      rw [hrx]
      exact hrl.keeps hk₁ (hout hxrl hyl)
  obtain ⟨hleft₂, hk₂⟩ := hleft.computeHeight hxl hxrl
  generalize hm₂ : m₁.computeHeight x = m₂ at hleft₂ hk₂
  obtain ⟨hyl₂, hyr₂, hyh₂⟩ := hk₂ y fun he => hxy (List.mem_singleton.mp he).symm
  have hroot : Shape m₂ y (node (node l x h rl).computeHeight y rh rr) := by
    refine ⟨rfl, hy0, ?_, ?_, ?_⟩
    · rw [hyh₂, ← hm₁]
      exact hyh
    · have hly : m₁.left y = x := by
        rw [← hm₁]
        exact Function.update_self ..
      rw [hyl₂, hly]
      exact hleft₂
    · have hry : m₁.right y = m.right y := by
        rw [← hm₁]
        exact Function.update_of_ne (Ne.symm hxy) ..
      rw [hyr₂, hry]
      refine (hrr.keeps hk₁ (hout hxrr hyr)).keeps hk₂ fun z hz he => ?_
      exact hxrr (List.mem_singleton.mp he ▸ hz)
  have hyleft : y ∉ (node l x h rl).computeHeight.inorder := by
    simp [hylft, hyl, Ne.symm hxy]
  obtain ⟨hroot₃, hk₃⟩ := hroot.computeHeight hyleft hyr
  have hrot : m.rotateLeft x = (y, m₂.computeHeight y) := by
    rw [AvlNodes.rotateLeft, hy, hm₁, hm₂]
  rw [hrot]
  refine ⟨hroot₃, hk₁.trans ((hk₂.mono fun z hz => ?_).trans (hk₃.mono fun z hz => ?_))⟩
  · simp [List.mem_singleton.mp hz]
  · simp [List.mem_singleton.mp hz]

/-! ### The other side

Left and right are exchanged, in memory and in the tree. -/

def mirror (m : AvlNodes P) : AvlNodes P := { m with left := m.right, right := m.left }

theorem mirror_computeHeight (m : AvlNodes P) (x : ℕ) :
    (m.computeHeight x).mirror = m.mirror.computeHeight x := by
  rw [AvlNodes.computeHeight, AvlNodes.computeHeight, Nat.max_comm]
  rfl

theorem rotateRight_eq_mirror (m : AvlNodes P) (x : ℕ) :
    m.rotateRight x = ((m.mirror.rotateLeft x).1, (m.mirror.rotateLeft x).2.mirror) := by
  dsimp only [AvlNodes.rotateLeft, AvlNodes.rotateRight]
  rw [mirror_computeHeight, mirror_computeHeight]
  rfl

theorem Shape.mirror (hs : Shape m p t) : Shape m.mirror p t.mirror := by
  induction t generalizing p with
  | null => exact hs
  | node l x h r ihl ihr =>
      obtain ⟨rfl, hx0, hh, hl, hr⟩ := hs
      exact ⟨rfl, hx0, hh, ihr hr, ihl hl⟩

theorem Shape.rotateRight (hs : Shape m x (node (node rl y rh rr) x h r))
    (hn : (node (node rl y rh rr) x h r).inorder.Nodup) :
    Shape (m.rotateRight x).2 (m.rotateRight x).1
        (AvlTree.rotateRight (node (node rl y rh rr) x h r)) ∧
      Keeps m (m.rotateRight x).2 [x, y] := by
  have hn' : (node (node rl y rh rr) x h r).mirror.inorder.Nodup := by
    rw [inorder_mirror]
    exact List.nodup_reverse.mpr hn
  obtain ⟨hrot, hk⟩ := hs.mirror.rotateLeft hn'
  rw [AvlNodes.rotateRight_eq_mirror, AvlTree.rotateRight_eq_mirror]
  refine ⟨hrot.mirror, fun z hz => ?_⟩
  · obtain ⟨hl, hr, hh⟩ := hk z hz
    exact ⟨hr, hl, hh⟩

/-! ## Balancing -/

/-- A tree that is higher than another is not null. -/
theorem exists_node_of_lt {a : ℕ} (h : a < t.getHeight) : ∃ l x h r, t = node l x h r := by
  cases t with
  | null => exact absurd h (Nat.not_lt_zero a)
  | node l x k r => exact ⟨l, x, k, r, rfl⟩

theorem getBalance_node (l r : AvlTree ℕ) (x h : ℕ) :
    (node l x h r).getBalance = (r.getHeight : Int) - l.getHeight := rfl

/-- The right child is rotated before, if it leans to the left. -/
theorem Shape.leanRight (hr : Shape m y (node rl y rh rr)) (hn : (node rl y rh rr).inorder.Nodup)
    (hlean : (node rl y rh rr).getBalance < 0) :
    Shape (m.rotateRight y).2 (m.rotateRight y).1 (AvlTree.rotateRight (node rl y rh rr)) ∧
      Keeps m (m.rotateRight y).2 (node rl y rh rr).inorder ∧
      ∃ l x h r, AvlTree.rotateRight (node rl y rh rr) = node l x h r := by
  rw [getBalance_node] at hlean
  obtain ⟨ll, z, lh, lr, rfl⟩ := exists_node_of_lt (t := rl) (a := rr.getHeight) (by omega)
  obtain ⟨hrot, hk⟩ := hr.rotateRight hn
  refine ⟨hrot, hk.mono fun w hw => ?_, _, _, _, _, rfl⟩
  simp only [List.mem_cons, List.not_mem_nil, or_false] at hw
  rcases hw with rfl | rfl
  · simp
  · simp

theorem Shape.leanLeft (hl : Shape m y (node rl y rh rr)) (hn : (node rl y rh rr).inorder.Nodup)
    (hlean : (node rl y rh rr).getBalance > 0) :
    Shape (m.rotateLeft y).2 (m.rotateLeft y).1 (AvlTree.rotateLeft (node rl y rh rr)) ∧
      Keeps m (m.rotateLeft y).2 (node rl y rh rr).inorder ∧
      ∃ l x h r, AvlTree.rotateLeft (node rl y rh rr) = node l x h r := by
  rw [getBalance_node] at hlean
  obtain ⟨ll, z, lh, lr, rfl⟩ := exists_node_of_lt (t := rr) (a := rl.getHeight) (by omega)
  obtain ⟨hrot, hk⟩ := hl.rotateLeft hn
  refine ⟨hrot, hk.mono fun w hw => ?_, _, _, _, _, rfl⟩
  simp only [List.mem_cons, List.not_mem_nil, or_false] at hw
  rcases hw with rfl | rfl
  · simp
  · simp

/-- Another child is hung in, after changes that did not concern the node and the other child. -/
theorem Shape.setRight (hs : Shape m x (node l x h r)) (hk : Keeps m m' xs) (hx : x ∉ xs)
    (hd : ∀ y ∈ l.inorder, y ∉ xs) (hxl : x ∉ l.inorder) {r' : AvlTree ℕ} (hr : Shape m' p r')
    (hxr : x ∉ r'.inorder) :
    Shape (m'.setRight x p) x (node l x h r') ∧ Keeps m (m'.setRight x p) (x :: xs) := by
  obtain ⟨-, hx0, hh, hl, -⟩ := hs
  obtain ⟨hkl, hkr, hkh⟩ := hk x hx
  have hset : Keeps m' (m'.setRight x p) [x] := keeps_setRight (List.mem_singleton_self x)
  refine ⟨⟨rfl, hx0, hkh.trans hh, ?_, ?_⟩, ?_⟩
  · have hleft : (m'.setRight x p).left x = m.left x := hkl
    rw [hleft]
    exact (hl.keeps hk hd).keeps hset fun y hy he => hxl (List.mem_singleton.mp he ▸ hy)
  · have hright : (m'.setRight x p).right x = p := Function.update_self ..
    rw [hright]
    exact hr.keeps hset fun y hy he => hxr (List.mem_singleton.mp he ▸ hy)
  · exact (hk.mono fun y hy => List.mem_cons_of_mem x hy).trans (hset.mono fun y hy =>
      List.mem_cons.mpr (Or.inl (List.mem_singleton.mp hy)))

theorem Shape.setLeft (hs : Shape m x (node l x h r)) (hk : Keeps m m' xs) (hx : x ∉ xs)
    (hd : ∀ y ∈ r.inorder, y ∉ xs) (hxr : x ∉ r.inorder) {l' : AvlTree ℕ} (hl : Shape m' p l')
    (hxl : x ∉ l'.inorder) :
    Shape (m'.setLeft x p) x (node l' x h r) ∧ Keeps m (m'.setLeft x p) (x :: xs) := by
  obtain ⟨-, hx0, hh, -, hr⟩ := hs
  obtain ⟨hkl, hkr, hkh⟩ := hk x hx
  have hset : Keeps m' (m'.setLeft x p) [x] := keeps_setLeft (List.mem_singleton_self x)
  refine ⟨⟨rfl, hx0, hkh.trans hh, ?_, ?_⟩, ?_⟩
  · have hleft : (m'.setLeft x p).left x = p := Function.update_self ..
    rw [hleft]
    exact hl.keeps hset fun y hy he => hxl (List.mem_singleton.mp he ▸ hy)
  · have hright : (m'.setLeft x p).right x = m.right x := hkr
    rw [hright]
    exact (hr.keeps hk hd).keeps hset fun y hy he => hxr (List.mem_singleton.mp he ▸ hy)
  · exact (hk.mono fun y hy => List.mem_cons_of_mem x hy).trans (hset.mono fun y hy =>
      List.mem_cons.mpr (Or.inl (List.mem_singleton.mp hy)))

@[simp] theorem setLeft_left (m : AvlNodes P) (n : ℕ) : m.setLeft n (m.left n) = m := by
  rw [AvlNodes.setLeft, Function.update_eq_self]

@[simp] theorem setRight_right (m : AvlNodes P) (n : ℕ) : m.setRight n (m.right n) = m := by
  rw [AvlNodes.setRight, Function.update_eq_self]

/-- A node is balanced: the one that replaces it is the root of the balanced tree. -/
theorem Shape.balance (hs : Shape m x (node l x h r)) (hn : (node l x h r).inorder.Nodup) :
    Shape (m.balance x).2 (m.balance x).1 (AvlTree.balance (node l x h r)) ∧
      Keeps m (m.balance x).2 (node l x h r).inorder := by
  obtain ⟨hnl, hnr, hxl, hxr, hd⟩ := nodup_node.mp hn
  obtain ⟨hs₁, hk₁⟩ := hs.computeHeight hxl hxr
  have hk₁ : Keeps m (m.computeHeight x) (node l x h r).inorder :=
    hk₁.mono fun z hz => by simp [List.mem_singleton.mp hz]
  rw [AvlNodes.balance, AvlTree.balance]
  dsimp only
  generalize m.computeHeight x = m₁ at hs₁ hk₁
  rw [computeHeight_node] at hs₁ ⊢
  dsimp only
  have hn₁ : (node l x (max l.getHeight r.getHeight + 1) r).inorder.Nodup := hn
  generalize max l.getHeight r.getHeight + 1 = h₁ at hs₁ hn₁ ⊢
  rw [hs₁.getBalance_eq, getBalance_node]
  have hs₁' := hs₁
  obtain ⟨-, hx0, hh, hl, hr⟩ := hs₁
  rw [hr.getBalance_eq, hl.getBalance_eq]
  split
  next hright =>
    obtain ⟨rl, y, rh, rr, rfl⟩ := exists_node_of_lt (t := r) (a := l.getHeight) (by omega)
    obtain ⟨hy, -⟩ := id hr
    split
    next hlean =>
      rw [hy] at hr ⊢
      obtain ⟨hr₂, hk₂, rl', y', rh', rr', hrot⟩ := hr.leanRight hnr hlean
      have hx' : x ∉ (AvlTree.rotateRight (node rl y rh rr)).inorder := by
        rw [inorder_rotateRight]
        exact hxr
      obtain ⟨hs₃, hk₃⟩ := hs₁'.setRight hk₂ hxr hd hxl hr₂ hx'
      have hk₃ := hk₃.mono fun z hz => (List.mem_append_right l.inorder hz : z ∈ l.inorder ++ x :: _)
      have hn₃ : (node l x h₁ (AvlTree.rotateRight (node rl y rh rr))).inorder.Nodup := by
        rw [inorder_node, inorder_rotateRight]
        exact hn
      rw [hrot] at hs₃ hn₃ ⊢
      obtain ⟨hs₄, hk₄⟩ := hs₃.rotateLeft hn₃
      refine ⟨hs₄, hk₁.trans (hk₃.trans (hk₄.mono fun z hz => ?_))⟩
      have hmem : y' ∈ (node rl y rh rr).inorder := by
        rw [← inorder_rotateRight, hrot]
        simp
      simp only [List.mem_cons, List.not_mem_nil, or_false] at hz
      rcases hz with rfl | rfl
      · simp
      · simp only [inorder_node] at hmem ⊢
        exact List.mem_append_right _ (List.mem_cons_of_mem _ hmem)
    next =>
      obtain ⟨hs₂, hk₂⟩ := hs₁'.rotateLeft hn₁
      refine ⟨hs₂, hk₁.trans (hk₂.mono fun z hz => ?_)⟩
      simp only [List.mem_cons, List.not_mem_nil, or_false] at hz
      rcases hz with rfl | rfl
      · simp
      · simp
  next =>
    split
    next hleft =>
      obtain ⟨rl, y, rh, rr, rfl⟩ := exists_node_of_lt (t := l) (a := r.getHeight) (by omega)
      obtain ⟨hy, -⟩ := id hl
      split
      next hlean =>
        rw [hy] at hl ⊢
        obtain ⟨hl₂, hk₂, rl', y', rh', rr', hrot⟩ := hl.leanLeft hnl hlean
        have hx' : x ∉ (AvlTree.rotateLeft (node rl y rh rr)).inorder := by
          rw [inorder_rotateLeft]
          exact hxl
        obtain ⟨hs₃, hk₃⟩ := hs₁'.setLeft hk₂ hxl (fun y hy hy' => hd y hy' hy) hxr hl₂ hx'
        have hk₃ : Keeps m₁ _ ((node rl y rh rr).inorder ++ x :: r.inorder) :=
          hk₃.mono fun z hz => by
            rcases List.mem_cons.mp hz with rfl | hz
            · simp
            · exact List.mem_append_left _ hz
        have hn₃ : (node (AvlTree.rotateLeft (node rl y rh rr)) x h₁ r).inorder.Nodup := by
          rw [inorder_node, inorder_rotateLeft]
          exact hn
        rw [hrot] at hs₃ hn₃ ⊢
        obtain ⟨hs₄, hk₄⟩ := hs₃.rotateRight hn₃
        refine ⟨hs₄, hk₁.trans (hk₃.trans (hk₄.mono fun z hz => ?_))⟩
        have hmem : y' ∈ (node rl y rh rr).inorder := by
          rw [← inorder_rotateLeft, hrot]
          simp
        simp only [List.mem_cons, List.not_mem_nil, or_false] at hz
        rcases hz with rfl | rfl
        · simp
        · simp only [inorder_node] at hmem ⊢
          exact List.mem_append_left _ hmem
      next =>
        obtain ⟨hs₂, hk₂⟩ := hs₁'.rotateRight hn₁
        refine ⟨hs₂, hk₁.trans (hk₂.mono fun z hz => ?_)⟩
        simp only [List.mem_cons, List.not_mem_nil, or_false] at hz
        rcases hz with rfl | rfl
        · simp
        · simp
    next => exact ⟨hs₁', hk₁⟩

end AvlNodes

end Beelzebub.Utils
