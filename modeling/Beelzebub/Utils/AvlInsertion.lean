import Beelzebub.Utils.AvlNodes
import Mathlib.Algebra.Ring.Nat

/-!
# Insertions into an AVL tree in memory

The three insertions descend to a null link and have a node allocated into it.  With a node,
they do what the insertion into the tree does.  Without one the tree is as before only if the
link is still null: what is in it is up to `AllocateNode`, to which the link is passed on by
reference.
-/

namespace Beelzebub.Utils

namespace AvlNodes

open AvlTree

variable {P : Type} {m m' : AvlNodes P} {p n x h : ℕ} {t l r : AvlTree ℕ} {xs : List ℕ}

/-! ## The recursion -/

variable {compare : P → Ordering} {allocateNode : ℕ → HandleResult × ℕ} {payload : Option P}
  {levels g : ℕ} {e : HandleResult}

theorem create_okay (payload : Option P) (m : AvlNodes P) (ha : allocateNode 0 = (.okay, n))
    (hn : n ≠ 0) :
    ∃ m', create allocateNode payload m = (.okay, n, m') ∧ Shape m' n (node null n 1 null) ∧
      Keeps m m' [n] := by
  have hmem : n ∈ [n] := List.mem_singleton_self n
  have hk : Keeps m (((m.setLeft n 0).setRight n 0).setHeight n 1) [n] :=
    (keeps_setLeft hmem).trans ((keeps_setRight hmem).trans (keeps_setHeight hmem))
  rw [create, ha]
  refine ⟨_, rfl, ?_⟩
  cases payload with
  | none =>
      exact ⟨⟨rfl, hn, Function.update_self .., Function.update_self .., Function.update_self ..⟩, hk⟩
  | some p =>
      exact ⟨⟨rfl, hn, Function.update_self .., Function.update_self .., Function.update_self ..⟩, hk⟩

theorem create_refused (ha : allocateNode 0 = (e, g)) (he : e ≠ .okay) :
    create allocateNode payload m = (e, g, m) := by
  rw [create, ha]
  split
  next heq =>
    cases heq
    exact absurd rfl he
  next heq =>
    cases heq
    rfl

/-- What an insertion with this node leaves is what the insertion into the tree gives. -/
inductive InsertSpec (m : AvlNodes P) (p n : ℕ) (t : AvlTree ℕ) (cmp : ℕ → Ordering)
    (out : Inserted P) : Prop
  | added {t' : AvlTree ℕ} : t.insert cmp (.ok n) = .ok (n, t') → out.result = .okay →
      out.place = n → Shape out.nodes out.link t' → t'.inorder.Perm (n :: t.inorder) →
      Keeps m out.nodes (n :: t.inorder) → InsertSpec m p n t cmp out
  | present : t.insert cmp (.ok n) = .error .cardinalityViolation →
      out.result = .cardinalityViolation → out.link = p → out.nodes = m →
      InsertSpec m p n t cmp out

theorem insertNode_null {create : AvlNodes P → HandleResult × ℕ × AvlNodes P} :
    insertNode compare create (levels + 1) 0 m =
      some ⟨(create m).1, (create m).2.1, (create m).2.1, (create m).2.2⟩ := rfl

/-- What a call makes of what the call for the child left. -/
def Inserted.rebalance (node : ℕ) (m : AvlNodes P) (out : Inserted P) : Inserted P :=
  if out.result = .okay then
    { out with link := (m.balance node).1, nodes := (m.balance node).2 }
  else { out with link := node, nodes := m }

theorem insertNode_node {create : AvlNodes P → HandleResult × ℕ × AvlNodes P} (hx : x ≠ 0) :
    insertNode compare create (levels + 1) x m =
      match compare (m.payload x) with
      | .eq => some ⟨.cardinalityViolation, x, x, m⟩
      | .gt => (insertNode compare create levels (m.left x) m).map fun out =>
          out.rebalance x (out.nodes.setLeft x out.link)
      | .lt => (insertNode compare create levels (m.right x) m).map fun out =>
          out.rebalance x (out.nodes.setRight x out.link) := by
  rw [insertNode, if_neg hx]
  rfl

section Hang

variable {out : Inserted P} {cmp : ℕ → Ordering} (hs : Shape m x (node l x h r))
  (hn : (node l x h r).inorder.Nodup) (hfresh : n ∉ (node l x h r).inorder)

include hs hn hfresh

/-- The left child with a new node is hung in, and the node balanced. -/
theorem InsertSpec.left (hout : InsertSpec m (m.left x) n l cmp out) (hx : cmp x = .gt) :
    InsertSpec m x n (node l x h r) cmp (out.rebalance x (out.nodes.setLeft x out.link)) := by
  obtain ⟨-, -, hxl, hxr, hd⟩ := nodup_node.mp hn
  have hnew : (n :: (node l x h r).inorder).Nodup := List.nodup_cons.mpr ⟨hfresh, hn⟩
  simp only [inorder_node, List.mem_append, List.mem_cons, not_or] at hfresh
  obtain ⟨-, hnx, hnr⟩ := hfresh
  cases hout with
  | added hins hres hplace hs' hperm hk =>
      rename_i l'
      have hxl' : x ∉ l'.inorder := by
        rw [hperm.mem_iff, List.mem_cons, not_or]
        exact ⟨Ne.symm hnx, hxl⟩
      have hdr : ∀ y ∈ r.inorder, y ∉ n :: l.inorder := by
        intro y hy hm
        rcases List.mem_cons.mp hm with rfl | hm
        · exact hnr hy
        · exact hd y hm hy
      obtain ⟨hs₁, hk₁⟩ := hs.setLeft hk (by simp [Ne.symm hnx, hxl]) hdr hxr hs' hxl'
      have hall : (node l' x h r).inorder.Perm (n :: (node l x h r).inorder) :=
        hperm.append_right (x :: r.inorder)
      obtain ⟨hs₂, hk₂⟩ := hs₁.balance (hall.nodup_iff.mpr hnew)
      rw [Inserted.rebalance, if_pos hres]
      refine .added ?_ hres hplace hs₂ ?_ ?_
      · rw [AvlTree.insert, hx]
        dsimp only
        rw [hins]
        rfl
      · rw [inorder_balance]
        exact hall
      · refine (hk₁.mono fun y hy => ?_).trans (hk₂.mono fun y hy => hall.mem_iff.mp hy)
        simp only [List.mem_cons, inorder_node, List.mem_append] at hy ⊢
        tauto
  | present hins hres hlink hnodes =>
      rw [Inserted.rebalance, if_neg (by rw [hres]; decide), hlink, hnodes, setLeft_left]
      refine .present ?_ hres rfl rfl
      rw [AvlTree.insert, hx]
      dsimp only
      rw [hins]
      rfl

theorem InsertSpec.right (hout : InsertSpec m (m.right x) n r cmp out) (hx : cmp x = .lt) :
    InsertSpec m x n (node l x h r) cmp (out.rebalance x (out.nodes.setRight x out.link)) := by
  obtain ⟨-, -, hxl, hxr, hd⟩ := nodup_node.mp hn
  have hnew : (n :: (node l x h r).inorder).Nodup := List.nodup_cons.mpr ⟨hfresh, hn⟩
  simp only [inorder_node, List.mem_append, List.mem_cons, not_or] at hfresh
  obtain ⟨hnl, hnx, -⟩ := hfresh
  cases hout with
  | added hins hres hplace hs' hperm hk =>
      rename_i r'
      have hxr' : x ∉ r'.inorder := by
        rw [hperm.mem_iff, List.mem_cons, not_or]
        exact ⟨Ne.symm hnx, hxr⟩
      have hdl : ∀ y ∈ l.inorder, y ∉ n :: r.inorder := by
        intro y hy hm
        rcases List.mem_cons.mp hm with rfl | hm
        · exact hnl hy
        · exact hd y hy hm
      obtain ⟨hs₁, hk₁⟩ := hs.setRight hk (by simp [Ne.symm hnx, hxr]) hdl hxl hs' hxr'
      have hall : (node l x h r').inorder.Perm (n :: (node l x h r).inorder) :=
        ((hperm.cons x).append_left l.inorder).trans
          (((List.Perm.swap n x r.inorder).append_left l.inorder).trans List.perm_middle)
      obtain ⟨hs₂, hk₂⟩ := hs₁.balance (hall.nodup_iff.mpr hnew)
      rw [Inserted.rebalance, if_pos hres]
      refine .added ?_ hres hplace hs₂ ?_ ?_
      · rw [AvlTree.insert, hx]
        dsimp only
        rw [hins]
        rfl
      · rw [inorder_balance]
        exact hall
      · refine (hk₁.mono fun y hy => ?_).trans (hk₂.mono fun y hy => hall.mem_iff.mp hy)
        simp only [List.mem_cons, inorder_node, List.mem_append] at hy ⊢
        tauto
  | present hins hres hlink hnodes =>
      rw [Inserted.rebalance, if_neg (by rw [hres]; decide), hlink, hnodes, setRight_right]
      refine .present ?_ hres rfl rfl
      rw [AvlTree.insert, hx]
      dsimp only
      rw [hins]
      rfl

end Hang

/-- An insertion for which there is a node does what the insertion into the tree does. -/
theorem insertNode_okay (compare : P → Ordering) (payload : Option P)
    (ha : allocateNode 0 = (.okay, n)) (hn0 : n ≠ 0) (hs : Shape m p t) (hn : t.inorder.Nodup)
    (hfresh : n ∉ t.inorder) (hlevels : t.height < levels) :
    ∃ out, insertNode compare (create allocateNode payload) levels p m = some out ∧
      InsertSpec m p n t (fun x => compare (m.payload x)) out := by
  induction levels generalizing p t with
  | zero => exact absurd hlevels (Nat.not_lt_zero _)
  | succ levels ih =>
      cases t with
      | null =>
          obtain ⟨m', hc, hs', hk⟩ := create_okay payload m ha hn0
          cases hs
          rw [insertNode_null, hc]
          exact ⟨_, rfl, .added rfl rfl rfl hs' (List.Perm.refl _) hk⟩
      | node l x h r =>
          obtain ⟨hnl, hnr, -⟩ := nodup_node.mp hn
          obtain ⟨rfl, hx0, -, hl, hr⟩ := id hs
          rw [AvlTree.height] at hlevels
          have hfl : n ∉ l.inorder := fun hm => hfresh (by simp [hm])
          have hfr : n ∉ r.inorder := fun hm => hfresh (by simp [hm])
          rw [insertNode_node hx0]
          cases hcmp : compare (m.payload p) with
          | eq =>
              refine ⟨_, rfl, .present ?_ rfl rfl rfl⟩
              rw [AvlTree.insert, hcmp]
          | gt =>
              obtain ⟨out, hout, hspec⟩ := ih hl hnl hfl (by omega)
              dsimp only
              rw [hout]
              exact ⟨_, rfl, hspec.left hs hn hfresh hcmp⟩
          | lt =>
              obtain ⟨out, hout, hspec⟩ := ih hr hnr hfr (by omega)
              dsimp only
              rw [hout]
              exact ⟨_, rfl, hspec.right hs hn hfresh hcmp⟩

/-! ### Without a node -/

/-- What an insertion leaves for which there is no node, where `AllocateNode` leaves `g` in the
link. -/
inductive RefusedSpec (m : AvlNodes P) (p : ℕ) (t : AvlTree ℕ) (cmp : ℕ → Ordering)
    (e : HandleResult) (g : ℕ) (out : Inserted P) : Prop
  | present {x : ℕ} : t.find cmp = some x → out = ⟨.cardinalityViolation, p, x, m⟩ →
      RefusedSpec m p t cmp e g out
  | absent : t.find cmp = none → out.result = e → out.place = g →
      (out.link = p ∧ out.nodes = m ↔ g = 0) → Keeps m out.nodes t.inorder →
      RefusedSpec m p t cmp e g out

theorem RefusedSpec.result_ne {cmp : ℕ → Ordering} {out : Inserted P}
    (hspec : RefusedSpec m p t cmp e g out) (he : e ≠ .okay) : out.result ≠ .okay := by
  cases hspec with
  | present _ hres =>
      rw [hres]
      exact nofun
  | absent _ hres => exact hres ▸ he

/-- A link of the node is what it was, or not; and so are the nodes. -/
theorem setLeft_eq_iff (hk : Keeps m m' xs) (hx : x ∉ xs) :
    m'.setLeft x p = m ↔ p = m.left x ∧ m' = m := by
  constructor
  · intro heq
    have hp : p = m.left x := by
      rw [← heq]
      exact (Function.update_self x p m'.left).symm
    have hsame : m'.setLeft x p = m' := by
      rw [hp, ← (hk x hx).1, setLeft_left]
    exact ⟨hp, hsame.symm.trans heq⟩
  · rintro ⟨rfl, rfl⟩
    exact setLeft_left ..

theorem setRight_eq_iff (hk : Keeps m m' xs) (hx : x ∉ xs) :
    m'.setRight x p = m ↔ p = m.right x ∧ m' = m := by
  constructor
  · intro heq
    have hp : p = m.right x := by
      rw [← heq]
      exact (Function.update_self x p m'.right).symm
    have hsame : m'.setRight x p = m' := by
      rw [hp, ← (hk x hx).2.1, setRight_right]
    exact ⟨hp, hsame.symm.trans heq⟩
  · rintro ⟨rfl, rfl⟩
    exact setRight_right ..

/-- An insertion without a node leaves the tree as it is exactly if the link it comes to is left
null, or there is a node in the way. -/
theorem insertNode_refused (compare : P → Ordering) (payload : Option P)
    (ha : allocateNode 0 = (e, g)) (he : e ≠ .okay) (hs : Shape m p t) (hn : t.inorder.Nodup)
    (hlevels : t.height < levels) :
    ∃ out, insertNode compare (create allocateNode payload) levels p m = some out ∧
      RefusedSpec m p t (fun x => compare (m.payload x)) e g out := by
  have hviolation : HandleResult.cardinalityViolation ≠ .okay := by decide
  induction levels generalizing p t with
  | zero => exact absurd hlevels (Nat.not_lt_zero _)
  | succ levels ih =>
      cases t with
      | null =>
          cases hs
          rw [insertNode_null, create_refused ha he]
          exact ⟨_, rfl, .absent rfl rfl rfl ⟨fun h => h.1, fun h => ⟨h, rfl⟩⟩ (.refl m [])⟩
      | node l x h r =>
          obtain ⟨hnl, hnr, hxl, hxr, -⟩ := nodup_node.mp hn
          obtain ⟨rfl, hx0, -, hl, hr⟩ := id hs
          rw [AvlTree.height] at hlevels
          rw [insertNode_node hx0]
          cases hcmp : compare (m.payload p) with
          | eq =>
              refine ⟨_, rfl, .present ?_ rfl⟩
              rw [AvlTree.find, hcmp]
          | gt =>
              obtain ⟨out, hout, hspec⟩ := ih hl hnl (by omega)
              have hfind : (node l p h r).find (fun x => compare (m.payload x)) =
                  l.find fun x => compare (m.payload x) := by
                rw [AvlTree.find, hcmp]
              dsimp only
              rw [hout]
              refine ⟨out.rebalance p (out.nodes.setLeft p out.link), rfl, ?_⟩
              cases hspec with
              | present hx hres =>
                  rw [hres, Inserted.rebalance, if_neg hviolation, setLeft_left]
                  exact .present (hfind.trans hx) rfl
              | absent hx hres hplace hsame hk =>
                  rw [Inserted.rebalance, if_neg (hres ▸ he)]
                  refine .absent (hfind.trans hx) hres hplace ?_ ?_
                  · dsimp only
                    rw [setLeft_eq_iff hk hxl, ← hsame]
                    exact ⟨fun h => h.2, fun h => ⟨rfl, h⟩⟩
                  · exact (hk.mono fun y hy => by simp [hy]).trans (keeps_setLeft (by simp))
          | lt =>
              obtain ⟨out, hout, hspec⟩ := ih hr hnr (by omega)
              have hfind : (node l p h r).find (fun x => compare (m.payload x)) =
                  r.find fun x => compare (m.payload x) := by
                rw [AvlTree.find, hcmp]
              dsimp only
              rw [hout]
              refine ⟨out.rebalance p (out.nodes.setRight p out.link), rfl, ?_⟩
              cases hspec with
              | present hx hres =>
                  rw [hres, Inserted.rebalance, if_neg hviolation, setRight_right]
                  exact .present (hfind.trans hx) rfl
              | absent hx hres hplace hsame hk =>
                  rw [Inserted.rebalance, if_neg (hres ▸ he)]
                  refine .absent (hfind.trans hx) hres hplace ?_ ?_
                  · dsimp only
                    rw [setRight_eq_iff hk hxr, ← hsame]
                    exact ⟨fun h => h.2, fun h => ⟨rfl, h⟩⟩
                  · exact (hk.mono fun y hy => by simp [hy]).trans (keeps_setRight (by simp))

end AvlNodes

/-! ## The members -/

/-- The object of the class `AvlTree`. -/
structure AvlObject (P : Type) where
  root : ℕ
  nodeCount : ℕ
  nodes : AvlNodes P

namespace AvlObject

variable {P K : Type} (compare : P → P → Ordering) (compareKey : P → K → Ordering)
  (allocateNode : ℕ → HandleResult × ℕ) (levels : ℕ)

/-- `Insert`, with the pointer to the node of the payload that is asked for. -/
def insert (p : P) (s : AvlObject P) : Option (HandleResult × ℕ × AvlObject P) :=
  (AvlNodes.insertNode (fun q => compare q p) (AvlNodes.create allocateNode (some p)) levels s.root
    s.nodes).map fun out =>
      let s := { s with root := out.link, nodes := out.nodes }
      if out.result = .okay then
        (out.result, out.place, { s with nodeCount := (s.nodeCount + 1) % 2 ^ 64 })
      else (out.result, 0, s)

/-- `InsertOrFind`, with the payload that is found.  It does not count the node. -/
def insertOrFind (p : P) (s : AvlObject P) : Option (HandleResult × Option P × AvlObject P) :=
  (AvlNodes.insertNode (fun q => compare q p) (AvlNodes.create allocateNode (some p)) levels s.root
    s.nodes).map fun out =>
      (out.result,
        if out.result = .cardinalityViolation then some (s.nodes.payload out.place) else none,
        { s with root := out.link, nodes := out.nodes })

/-- `InsertBlank`, with the pointer to the node of the payload unless there is one in the way. -/
def insertBlank (k : K) (s : AvlObject P) : Option (HandleResult × Option ℕ × AvlObject P) :=
  (AvlNodes.insertNode (fun q => compareKey q k) (AvlNodes.create allocateNode none) levels s.root
    s.nodes).map fun out =>
      let s := { s with root := out.link, nodes := out.nodes }
      (out.result, if out.result = .cardinalityViolation then none else some out.place,
        if out.result = .okay then { s with nodeCount := (s.nodeCount + 1) % 2 ^ 64 } else s)

/-- A call that inserts. -/
inductive Insertion (P K : Type) where
  | insert (p : P)
  | insertOrFind (p : P)
  | insertBlank (k : K)

/-- The comparison of the payloads in the tree with what is inserted. -/
def Insertion.compareTo : Insertion P K → P → Ordering
  | insert p | insertOrFind p => fun q => compare q p
  | insertBlank k => fun q => compareKey q k

/-- The result of the call and the tree after it. -/
def Insertion.perform (op : Insertion P K) (s : AvlObject P) :
    Option (HandleResult × AvlObject P) :=
  match op with
  | insert p => (s.insert compare allocateNode levels p).map fun out => (out.1, out.2.2)
  | insertOrFind p => (s.insertOrFind compare allocateNode levels p).map fun out => (out.1, out.2.2)
  | insertBlank k => (s.insertBlank compareKey allocateNode levels k).map fun out =>
      (out.1, out.2.2)

/-! ### Without a node -/

variable {compare compareKey allocateNode levels} {op : Insertion P K} {s : AvlObject P}
  {t : AvlTree ℕ} {e : HandleResult} {g : ℕ}

/-- The insertion leaves the tree exactly as it was, and says why. -/
def Insertion.Unharmed (compare : P → P → Ordering) (compareKey : P → K → Ordering)
    (allocateNode : ℕ → HandleResult × ℕ) (levels : ℕ) (op : Insertion P K) (s : AvlObject P)
    (t : AvlTree ℕ) (e : HandleResult) : Prop :=
  op.perform compare compareKey allocateNode levels s =
    some (if (t.find fun x => op.compareTo compare compareKey (s.nodes.payload x)).isSome then
      .cardinalityViolation else e, s)

/-- What the members do with what the recursion leaves without a node. -/
theorem Insertion.perform_refused (compare : P → P → Ordering) (compareKey : P → K → Ordering)
    (allocateNode : ℕ → HandleResult × ℕ) (op : Insertion P K) (ha : allocateNode 0 = (e, g))
    (he : e ≠ .okay)
    (hs : s.nodes.Shape s.root t) (hn : t.inorder.Nodup) (hlevels : t.height < levels) :
    ∃ out, op.perform compare compareKey allocateNode levels s =
        some (out.result, { s with root := out.link, nodes := out.nodes }) ∧
      AvlNodes.RefusedSpec s.nodes s.root t
        (fun x => op.compareTo compare compareKey (s.nodes.payload x)) e g out := by
  cases op with
  | insert p =>
      obtain ⟨out, hout, hspec⟩ :=
        AvlNodes.insertNode_refused (fun q => compare q p) (some p) ha he hs hn hlevels
      refine ⟨out, ?_, hspec⟩
      rw [perform, AvlObject.insert, hout, Option.map_some, Option.map_some,
        if_neg (hspec.result_ne he)]
  | insertOrFind p =>
      obtain ⟨out, hout, hspec⟩ :=
        AvlNodes.insertNode_refused (fun q => compare q p) (some p) ha he hs hn hlevels
      refine ⟨out, ?_, hspec⟩
      rw [perform, AvlObject.insertOrFind, hout, Option.map_some, Option.map_some]
  | insertBlank k =>
      obtain ⟨out, hout, hspec⟩ :=
        AvlNodes.insertNode_refused (fun q => compareKey q k) none ha he hs hn hlevels
      refine ⟨out, ?_, hspec⟩
      rw [perform, AvlObject.insertBlank, hout, Option.map_some, Option.map_some]
      dsimp only
      rw [if_neg (hspec.result_ne he)]

/-- An insertion without a node does no harm exactly if there is a node in the way, or
`AllocateNode` leaves the link null. -/
theorem Insertion.unharmed_iff (ha : allocateNode 0 = (e, g)) (he : e ≠ .okay)
    (hs : s.nodes.Shape s.root t) (hn : t.inorder.Nodup) (hlevels : t.height < levels) :
    op.Unharmed compare compareKey allocateNode levels s t e ↔
      (t.find fun x => op.compareTo compare compareKey (s.nodes.payload x)).isSome ∨ g = 0 := by
  obtain ⟨out, hout, hspec⟩ := perform_refused compare compareKey allocateNode op ha he hs hn hlevels
  rw [Insertion.Unharmed, hout]
  cases hspec with
  | present hfind hres =>
      rw [hfind, hres]
      exact iff_of_true rfl (Or.inl rfl)
  | absent hfind hres hplace hsame hk =>
      rw [hfind, hres, ← hsame]
      simp only [Option.isSome_none, Bool.false_eq_true, if_false, Option.some.injEq, Prod.mk.injEq,
        true_and, false_or]
      constructor
      · intro heq
        exact ⟨congrArg root heq, congrArg nodes heq⟩
      · rintro ⟨hlink, hnodes⟩
        rw [hlink, hnodes]

end AvlObject

end Beelzebub.Utils
