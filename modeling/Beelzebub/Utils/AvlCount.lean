import Beelzebub.Utils.AvlInsertion
import Beelzebub.Utils.AvlSet
import Mathlib.Data.List.NodupEquivFin

/-!
# The count of the nodes of an AVL tree

The members keep the number of nodes themselves, each on its own way out.  All but
`InsertOrFind` do; so the count is that of the nodes in every run in which `InsertOrFind` adds
none.  What a failed insertion leaves in the link is the subject of the insertions.
-/

namespace Beelzebub.Utils

/-- An insertion of a node fails only because of one that is found. -/
theorem AvlTree.find_of_insert_error {α : Type} {cmp : α → Ordering} {t : AvlTree α} {y : α}
    {e : HandleResult} (h : t.insert cmp (.ok y) = .error e) : ∃ x, t.find cmp = some x := by
  induction t with
  | null => cases h
  | node l x k r ihl ihr =>
      rw [AvlTree.insert] at h
      rw [AvlTree.find]
      cases hx : cmp x with
      | eq => exact ⟨x, rfl⟩
      | gt =>
          rw [hx] at h
          cases hins : l.insert cmp (.ok y) with
          | error e' => exact ihl (hins.trans (by simpa [hins, Except.map] using h))
          | ok out =>
              rw [hins] at h
              cases h
      | lt =>
          rw [hx] at h
          cases hins : r.insert cmp (.ok y) with
          | error e' => exact ihr (hins.trans (by simpa [hins, Except.map] using h))
          | ok out =>
              rw [hins] at h
              cases h

namespace AvlNodes

open AvlTree

variable {P : Type} {m m' : AvlNodes P} {p n x h levels : ℕ} {t l r : AvlTree ℕ} {xs : List ℕ}

/-! ## Removal from memory -/

/-- What `RemoveMinimum` leaves is what it leaves of the tree. -/
structure MinimumSpec (m : AvlNodes P) (t : AvlTree ℕ) (out : Removed P) : Prop where
  node : t.removeMinimum.1 = some out.node
  shape : Shape out.nodes out.link t.removeMinimum.2
  split : t.inorder = out.node :: t.removeMinimum.2.inorder
  keeps : Keeps m out.nodes t.inorder

theorem removeMinimum_spec (hs : Shape m p t) (hn : t.inorder.Nodup) (ht : t ≠ null)
    (hlevels : t.height < levels) :
    ∃ out, removeMinimum levels p m = some out ∧ MinimumSpec m t out := by
  induction levels generalizing p t with
  | zero => exact absurd hlevels (Nat.not_lt_zero _)
  | succ levels ih =>
      cases t with
      | null => exact absurd rfl ht
      | node l x h r =>
          obtain ⟨hnl, hnr, hxl, hxr, hd⟩ := nodup_node.mp hn
          obtain ⟨rfl, hx0, -, hl, hr⟩ := id hs
          rw [AvlTree.height] at hlevels
          rw [AvlNodes.removeMinimum, if_neg hx0]
          split
          next hleft =>
            obtain rfl := hl.eq_zero.mp hleft
            exact ⟨_, rfl, rfl, hr, rfl, .refl m _⟩
          next hleft =>
            have hne : l ≠ null := fun he => hleft (hl.eq_zero.mpr he)
            obtain ⟨out, hout, hnode, hs', hsplit, hk⟩ := ih hl hnl hne (by omega)
            have hsub : ∀ y ∈ l.removeMinimum.2.inorder, y ∈ l.inorder := fun y hy => by
              rw [hsplit]
              exact List.mem_cons_of_mem _ hy
            obtain ⟨hs₁, hk₁⟩ := hs.setLeft hk hxl (fun y hy hy' => hd y hy' hy) hxr hs'
              fun hm => hxl (hsub _ hm)
            have hall : (node l p h r).inorder =
                out.node :: (node l.removeMinimum.2 p h r).inorder := by
              rw [inorder_node, hsplit]
              rfl
            obtain ⟨hs₂, hk₂⟩ := hs₁.balance (by
              rw [hall] at hn
              exact (List.nodup_cons.mp hn).2)
            rw [hout]
            refine ⟨_, rfl, ?_⟩
            have hmin := removeMinimum_node (x := p) (h := h) (r := r) hne
            refine ⟨?_, ?_, ?_, ?_⟩
            · rw [hmin]
              exact hnode
            · rw [hmin]
              exact hs₂
            · rw [hmin, inorder_balance]
              exact hall
            · refine (hk₁.mono fun y hy => ?_).trans (hk₂.mono fun y hy => ?_)
              · rcases List.mem_cons.mp hy with rfl | hy
                · simp
                · simp [hy]
              · rw [hall]
                exact List.mem_cons_of_mem _ hy

/-- A node takes the place of another, with its children and its height. -/
theorem Shape.takeOver {y : ℕ} (hs : Shape m x (node l x h r)) (hy : y ≠ 0)
    (hyl : y ∉ l.inorder) (hyr : y ∉ r.inorder) :
    Shape (m.takeOver y x) y (node l y h r) ∧ Keeps m (m.takeOver y x) [y] := by
  obtain ⟨-, -, hh, hl, hr⟩ := hs
  have hmem : y ∈ [y] := List.mem_singleton_self y
  have hk : Keeps m (m.takeOver y x) [y] :=
    (keeps_setLeft hmem).trans ((keeps_setRight hmem).trans (keeps_setHeight hmem))
  refine ⟨⟨rfl, hy, (Function.update_self ..).trans hh, ?_, ?_⟩, hk⟩
  · have hleft : (m.takeOver y x).left y = m.left x := Function.update_self ..
    rw [hleft]
    exact hl.keeps hk fun z hz he => hyl (List.mem_singleton.mp he ▸ hz)
  · have hright : (m.takeOver y x).right y = m.right x := Function.update_self ..
    rw [hright]
    exact hr.keeps hk fun z hz he => hyr (List.mem_singleton.mp he ▸ hz)

/-- A node with two children is replaced by its successor. -/
theorem removeRoot_successor {ll lr rl rr : AvlTree ℕ} {z lh y rh w : ℕ}
    (hmin : (node rl y rh rr).removeMinimum.1 = some w) :
    AvlTree.removeRoot (node ll z lh lr) h (node rl y rh rr) =
      AvlTree.balance (node (node ll z lh lr) w h (node rl y rh rr).removeMinimum.2) := by
  cases hm : (node rl y rh rr).removeMinimum with
  | mk res r' =>
      rw [hm] at hmin
      cases hmin
      simp only [AvlTree.removeRoot, hm]

/-- What is left in the place of a node is what is left of its children. -/
theorem removeRoot_spec (hs : Shape m x (node l x h r)) (hn : (node l x h r).inorder.Nodup)
    (hlevels : r.height < levels) :
    ∃ link m', removeRoot levels x m = some (link, m') ∧ Shape m' link (AvlTree.removeRoot l h r) ∧
      Keeps m m' (node l x h r).inorder := by
  obtain ⟨hnl, hnr, hxl, hxr, hd⟩ := nodup_node.mp hn
  obtain ⟨-, hx0, -, hl, hr⟩ := id hs
  have hl0 := hl.eq_zero
  have hr0 := hr.eq_zero
  rw [AvlNodes.removeRoot]
  cases l with
  | null =>
      rw [if_pos (hl0.mpr rfl)]
      cases r with
      | null =>
          rw [if_pos (hr0.mpr rfl)]
          exact ⟨0, m, rfl, rfl, .refl m _⟩
      | node rl y rh rr =>
          rw [if_neg fun he => nomatch hr0.mp he]
          obtain ⟨hy, -⟩ := id hr
          rw [hy] at hr ⊢
          obtain ⟨hs₁, hk₁⟩ := hr.balance hnr
          exact ⟨_, _, rfl, hs₁, hk₁.mono fun z hz => List.mem_cons_of_mem x hz⟩
  | node ll z lh lr =>
      rw [if_neg fun he => nomatch hl0.mp he]
      cases r with
      | null =>
          rw [if_pos (hr0.mpr rfl)]
          obtain ⟨hz, -⟩ := id hl
          rw [hz] at hl ⊢
          obtain ⟨hs₁, hk₁⟩ := hl.balance hnl
          exact ⟨_, _, rfl, hs₁, hk₁.mono fun w hw => List.mem_append_left _ hw⟩
      | node rl y rh rr =>
          rw [if_neg fun he => nomatch hr0.mp he]
          obtain ⟨out, hout, hnode, hs', hsplit, hk⟩ := removeMinimum_spec hr hnr nofun hlevels
          have hmem : out.node ∈ (node rl y rh rr).inorder := by
            rw [hsplit]
            exact List.mem_cons_self
          have hnr' := hnr
          rw [hsplit] at hnr'
          obtain ⟨hnotin, hnr'⟩ := List.nodup_cons.mp hnr'
          have hsub : ∀ w ∈ (node rl y rh rr).removeMinimum.2.inorder,
              w ∈ (node rl y rh rr).inorder := fun w hw => by
            rw [hsplit]
            exact List.mem_cons_of_mem _ hw
          obtain ⟨hs₁, hk₁⟩ := hs.setRight hk hxr hd hxl hs' fun hm => hxr (hsub x hm)
          have hne : out.node ≠ 0 := ne_of_mem_of_not_mem hmem hr.zero_notMem
          have hnotleft : out.node ∉ (node ll z lh lr).inorder := fun hm => hd _ hm hmem
          obtain ⟨hs₂, hk₂⟩ := hs₁.takeOver hne hnotleft hnotin
          have hn₂ : (node (node ll z lh lr) out.node h
              (node rl y rh rr).removeMinimum.2).inorder.Nodup :=
            nodup_node.mpr ⟨hnl, hnr', hnotleft, hnotin, fun w hw hw' => hd w hw (hsub w hw')⟩
          obtain ⟨hs₃, hk₃⟩ := hs₂.balance hn₂
          rw [hout]
          refine ⟨_, _, rfl, ?_, ?_⟩
          · rw [removeRoot_successor hnode]
            exact hs₃
          · refine (hk₁.mono fun w hw => ?_).trans ((hk₂.mono fun w hw => ?_).trans
              (hk₃.mono fun w hw => ?_))
            · exact List.mem_append_right _ hw
            · rw [List.mem_singleton.mp hw]
              exact List.mem_append_right _ (List.mem_cons_of_mem x hmem)
            · rcases List.mem_append.mp hw with hw | hw
              · exact List.mem_append_left _ hw
              · refine List.mem_append_right _ (List.mem_cons_of_mem x ?_)
                rw [hsplit]
                exact hw

/-- What a removal leaves is what the removal from the tree leaves. -/
inductive RemoveSpec (m : AvlNodes P) (p : ℕ) (t : AvlTree ℕ) (cmp : ℕ → Ordering)
    (pred : ℕ → Bool) (out : Removed P) : Prop
  | removed {y : ℕ} {t' : AvlTree ℕ} : t.removeIf cmp pred = (some y, t') → out.node = y →
      y ≠ 0 → Shape out.nodes out.link t' → t.inorder.Perm (y :: t'.inorder) →
      Keeps m out.nodes t.inorder → RemoveSpec m p t cmp pred out
  | kept : (t.removeIf cmp pred).1 = none → out = ⟨0, p, m⟩ → RemoveSpec m p t cmp pred out

/-- What a call makes of what the call for the child left. -/
def Removed.rebalance (node : ℕ) (m : AvlNodes P) (out : Removed P) : Removed P :=
  if out.node ≠ 0 then ⟨out.node, (m.balance node).1, (m.balance node).2⟩ else ⟨0, node, m⟩

theorem removeNode_node {compare : P → Ordering} {pred : ℕ → P → Bool} (hx : x ≠ 0) :
    removeNode compare pred (levels + 1) x m =
      match compare (m.payload x) with
      | .gt => (removeNode compare pred levels (m.left x) m).map fun out =>
          out.rebalance x (out.nodes.setLeft x out.link)
      | .lt => (removeNode compare pred levels (m.right x) m).map fun out =>
          out.rebalance x (out.nodes.setRight x out.link)
      | .eq =>
          if pred x (m.payload x) then
            (removeRoot levels x m).map fun out => ⟨x, out.1, out.2⟩
          else some ⟨0, x, m⟩ := by
  rw [removeNode, if_neg hx]
  rfl

section Hang

variable {out : Removed P} {cmp : ℕ → Ordering} {pred : ℕ → Bool}
  (hs : Shape m x (node l x h r)) (hn : (node l x h r).inorder.Nodup)

include hs hn

/-- The left child is hung in without the node that was taken out, and the node balanced. -/
theorem RemoveSpec.left (hout : RemoveSpec m (m.left x) l cmp pred out) (hx : cmp x = .gt) :
    RemoveSpec m x (node l x h r) cmp pred (out.rebalance x (out.nodes.setLeft x out.link)) := by
  obtain ⟨-, -, hxl, hxr, hd⟩ := nodup_node.mp hn
  cases hout with
  | removed hrem hnode hy hs' hperm hk =>
      rename_i y l'
      have hsub : ∀ z ∈ l'.inorder, z ∈ l.inorder := fun z hz =>
        hperm.mem_iff.mpr (List.mem_cons_of_mem y hz)
      obtain ⟨hs₁, hk₁⟩ := hs.setLeft hk hxl (fun z hz hz' => hd z hz' hz) hxr hs'
        fun hm => hxl (hsub x hm)
      have hall : (node l x h r).inorder.Perm (y :: (node l' x h r).inorder) :=
        hperm.append_right (x :: r.inorder)
      obtain ⟨hs₂, hk₂⟩ := hs₁.balance (List.nodup_cons.mp (hall.nodup_iff.mp hn)).2
      rw [Removed.rebalance, if_pos (hnode ▸ hy)]
      refine .removed ?_ hnode hy hs₂ ?_ ?_
      · simp only [AvlTree.removeIf, hx, hrem]
      · rw [inorder_balance]
        exact hall
      · refine (hk₁.mono fun z hz => ?_).trans
          (hk₂.mono fun z hz => hall.mem_iff.mpr (List.mem_cons_of_mem y hz))
        rcases List.mem_cons.mp hz with rfl | hz
        · simp
        · simp [hz]
  | kept hrem hout =>
      rw [hout, Removed.rebalance, if_neg (not_not.mpr rfl), setLeft_left]
      refine .kept ?_ rfl
      cases hres : l.removeIf cmp pred with
      | mk res l' =>
          rw [hres] at hrem
          cases hrem
          simp only [AvlTree.removeIf, hx, hres]

theorem RemoveSpec.right (hout : RemoveSpec m (m.right x) r cmp pred out) (hx : cmp x = .lt) :
    RemoveSpec m x (node l x h r) cmp pred (out.rebalance x (out.nodes.setRight x out.link)) := by
  obtain ⟨-, -, hxl, hxr, hd⟩ := nodup_node.mp hn
  cases hout with
  | removed hrem hnode hy hs' hperm hk =>
      rename_i y r'
      have hsub : ∀ z ∈ r'.inorder, z ∈ r.inorder := fun z hz =>
        hperm.mem_iff.mpr (List.mem_cons_of_mem y hz)
      obtain ⟨hs₁, hk₁⟩ := hs.setRight hk hxr hd hxl hs' fun hm => hxr (hsub x hm)
      have hall : (node l x h r).inorder.Perm (y :: (node l x h r').inorder) :=
        ((hperm.cons x).append_left l.inorder).trans
          (((List.Perm.swap y x r'.inorder).append_left l.inorder).trans List.perm_middle)
      obtain ⟨hs₂, hk₂⟩ := hs₁.balance (List.nodup_cons.mp (hall.nodup_iff.mp hn)).2
      rw [Removed.rebalance, if_pos (hnode ▸ hy)]
      refine .removed ?_ hnode hy hs₂ ?_ ?_
      · simp only [AvlTree.removeIf, hx, hrem]
      · rw [inorder_balance]
        exact hall
      · refine (hk₁.mono fun z hz => ?_).trans
          (hk₂.mono fun z hz => hall.mem_iff.mpr (List.mem_cons_of_mem y hz))
        rcases List.mem_cons.mp hz with rfl | hz
        · simp
        · simp [hz]
  | kept hrem hout =>
      rw [hout, Removed.rebalance, if_neg (not_not.mpr rfl), setRight_right]
      refine .kept ?_ rfl
      cases hres : r.removeIf cmp pred with
      | mk res r' =>
          rw [hres] at hrem
          cases hrem
          simp only [AvlTree.removeIf, hx, hres]

end Hang

/-- A removal from memory does what the removal from the tree does. -/
theorem removeNode_spec (compare : P → Ordering) (pred : ℕ → P → Bool) (hs : Shape m p t)
    (hn : t.inorder.Nodup) (hlevels : t.height < levels) :
    ∃ out, removeNode compare pred levels p m = some out ∧
      RemoveSpec m p t (fun x => compare (m.payload x)) (fun x => pred x (m.payload x)) out := by
  induction levels generalizing p t with
  | zero => exact absurd hlevels (Nat.not_lt_zero _)
  | succ levels ih =>
      cases t with
      | null =>
          cases hs
          exact ⟨_, rfl, .kept rfl rfl⟩
      | node l x h r =>
          obtain ⟨hnl, hnr, -⟩ := nodup_node.mp hn
          obtain ⟨rfl, hx0, -, hl, hr⟩ := id hs
          rw [AvlTree.height] at hlevels
          rw [removeNode_node hx0]
          cases hcmp : compare (m.payload p) with
          | eq =>
              dsimp only
              split
              next hpred =>
                have hright : r.height < levels := by omega
                obtain ⟨link, m', hroot, hs', hk⟩ := removeRoot_spec hs hn hright
                rw [hroot]
                refine ⟨_, rfl, .removed ?_ rfl hx0 hs' ?_ hk⟩
                · simp only [AvlTree.removeIf, hcmp, hpred, if_true]
                · rw [inorder_removeRoot]
                  exact List.perm_middle
              next hpred =>
                refine ⟨_, rfl, .kept ?_ rfl⟩
                simp only [AvlTree.removeIf, hcmp, hpred]
                rfl
          | gt =>
              obtain ⟨out, hout, hspec⟩ := ih hl hnl (by omega)
              dsimp only
              rw [hout]
              exact ⟨_, rfl, hspec.left hs hn hcmp⟩
          | lt =>
              obtain ⟨out, hout, hspec⟩ := ih hr hnr (by omega)
              dsimp only
              rw [hout]
              exact ⟨_, rfl, hspec.right hs hn hcmp⟩

/-! ## Clearing -/

/-- Every node of the tree is removed once. -/
theorem clear_spec (release : ℕ → HandleResult) (hs : Shape m p t) (hlevels : t.height < levels) :
    ∃ res nodes, clear release levels p m = some (res, nodes) ∧ nodes.Perm t.inorder := by
  induction levels generalizing p t with
  | zero => exact absurd hlevels (Nat.not_lt_zero _)
  | succ levels ih =>
      cases t with
      | null =>
          cases hs
          exact ⟨_, _, rfl, .refl _⟩
      | node l x h r =>
          obtain ⟨rfl, hx0, -, hl, hr⟩ := hs
          rw [AvlTree.height] at hlevels
          obtain ⟨res1, xs, hxs, hpl⟩ := ih hl (by omega)
          obtain ⟨res2, ys, hys, hpr⟩ := ih hr (by omega)
          rw [clear, if_neg hx0, hxs, Option.bind_some, hys]
          refine ⟨_, _, rfl, ?_⟩
          rw [List.append_assoc]
          exact hpl.append ((List.perm_append_singleton p ys).trans (hpr.cons p))

end AvlNodes

/-! ## The members -/

namespace AvlObject

variable {P K : Type} (compare : P → P → Ordering) (compareKey : P → K → Ordering) (levels : ℕ)

/-- `RemoveIf`, where `RemoveNode` answers with this. -/
def removeIf (k : K) (pred : ℕ → P → Bool) (release : HandleResult) (s : AvlObject P) :
    Option (HandleResult × AvlObject P) :=
  (AvlNodes.removeNode (fun q => compareKey q k) pred levels s.root s.nodes).map fun out =>
    let s := { s with root := out.link, nodes := out.nodes }
    if out.node = 0 then (.notFound, s)
    else (release, { s with nodeCount := (s.nodeCount + (2 ^ 64 - 1)) % 2 ^ 64 })

def remove (k : K) (release : HandleResult) (s : AvlObject P) :
    Option (HandleResult × AvlObject P) :=
  s.removeIf compareKey levels k (fun _ _ => true) release

def clear (release : ℕ → HandleResult) (s : AvlObject P) : Option (HandleResult × AvlObject P) :=
  (AvlNodes.clear release levels s.root s.nodes).map fun out =>
    (out.1, { s with root := 0, nodeCount := 0 })

/-- Whether the member counts the node that it adds. -/
def Insertion.counts : Insertion P K → Bool
  | insertOrFind _ => false
  | insert _ | insertBlank _ => true

/-- The calls, with what `AllocateNode` makes of a null link and what `RemoveNode` answers; and a
write of the program to a payload. -/
inductive Op (P K : Type) where
  | insertion (op : Insertion P K) (res : HandleResult) (link : ℕ)
  | remove (k : K) (release : HandleResult)
  | removeIf (k : K) (pred : ℕ → P → Bool) (release : HandleResult)
  | clear (release : ℕ → HandleResult)
  | write (n : ℕ) (p : P)

/-- The tree after a call, if it comes back. -/
def Op.perform (op : Op P K) (s : AvlObject P) : Option (AvlObject P) :=
  match op with
  | insertion op res link =>
      (op.perform compare compareKey (fun _ => (res, link)) levels s).map Prod.snd
  | remove k release => (s.remove compareKey levels k release).map Prod.snd
  | removeIf k pred release => (s.removeIf compareKey levels k pred release).map Prod.snd
  | clear release => (s.clear levels release).map Prod.snd
  | write n p => some { s with nodes := s.nodes.setPayload n p }

/-- The tree that the root points to. -/
def Points (s : AvlObject P) (t : AvlTree ℕ) : Prop :=
  s.nodes.Shape s.root t ∧ t.inorder.Nodup

/-- The node that is allocated is a new one. -/
def Op.Allowed (s : AvlObject P) : Op P K → Prop
  | insertion _ res link => res = .okay →
      link ≠ 0 ∧ link < 2 ^ 64 ∧ ∀ t, s.Points t → link ∉ t.inorder
  | _ => True

/-- The count is that of the nodes which the root leads to. -/
def Counted (s : AvlObject P) : Prop := ∃ t, s.Points t ∧ s.nodeCount = t.inorder.length

/-- There is a node in the way of what is inserted. -/
def Present (s : AvlObject P) (op : Insertion P K) : Prop :=
  ∀ t, s.Points t → (t.find fun x => op.compareTo compare compareKey (s.nodes.payload x)).isSome

/-- `InsertOrFind` adds no node; and what is left in the link by a failed allocation is null. -/
def Op.CountsNode (s : AvlObject P) : Op P K → Prop
  | insertion op res link => s.Present compare compareKey op ∨
      (res = .okay ∧ op.counts = true) ∨ (res ≠ .okay ∧ link = 0)
  | _ => True

/-- The trees after finitely many calls of this kind that come back, from an empty one.  The
recursion goes as deep as the tree is high. -/
inductive Run (kind : AvlObject P → Op P K → Prop) : AvlObject P → Prop
  | start (nodes : AvlNodes P) : Run kind ⟨0, 0, nodes⟩
  | call {s s' : AvlObject P} (op : Op P K) (levels : ℕ) : Run kind s → kind s op →
      (∀ t, s.Points t → t.height < levels) → op.perform compare compareKey levels s = some s' →
      Run kind s'

/-! ### Counting -/

variable {compare compareKey levels} {s s' : AvlObject P} {t : AvlTree ℕ} {n : ℕ}

/-- The invariant: the nodes have addresses, and the count is theirs. -/
structure Inv (s : AvlObject P) (t : AvlTree ℕ) : Prop where
  points : s.Points t
  bound : ∀ n ∈ t.inorder, n < 2 ^ 64
  nodeCount : s.nodeCount = t.inorder.length

theorem length_lt {N : ℕ} {l : List ℕ} (hn : l.Nodup) (h0 : 0 ∉ l) (hb : ∀ n ∈ l, n < N)
    (hN : 0 < N) : l.length < N := by
  have hsub : 0 :: l ⊆ List.range N := by
    intro n hmem
    rw [List.mem_range]
    rcases List.mem_cons.mp hmem with rfl | hmem
    · exact hN
    · exact hb n hmem
  have hle := (List.subperm_of_subset (List.nodup_cons.mpr ⟨h0, hn⟩) hsub).length_le
  rwa [List.length_range, List.length_cons] at hle

theorem Inv.length_lt (h : Inv s t) : t.inorder.length < 2 ^ 64 :=
  AvlObject.length_lt h.points.2 h.points.1.zero_notMem h.bound (Nat.two_pow_pos 64)

theorem Points.unique {t' : AvlTree ℕ} (h : s.Points t) (h' : s.Points t') : t = t' :=
  h.1.unique h'.1

/-- What an insertion with a node makes of the object. -/
theorem Insertion.perform_okay (compare : P → P → Ordering) (compareKey : P → K → Ordering)
    (allocateNode : ℕ → HandleResult × ℕ) (op : Insertion P K)
    (ha : allocateNode 0 = (.okay, n)) (hn0 : n ≠ 0) (hs : s.Points t) (hfresh : n ∉ t.inorder)
    (hlevels : t.height < levels) :
    ∃ out, op.perform compare compareKey allocateNode levels s = some (out.result,
        ⟨out.link, if out.result = .okay ∧ op.counts = true then (s.nodeCount + 1) % 2 ^ 64
          else s.nodeCount, out.nodes⟩) ∧
      AvlNodes.InsertSpec s.nodes s.root n t
        (fun x => op.compareTo compare compareKey (s.nodes.payload x)) out := by
  cases op with
  | insert p =>
      obtain ⟨out, hout, hspec⟩ :=
        AvlNodes.insertNode_okay (fun q => compare q p) (some p) ha hn0 hs.1 hs.2 hfresh hlevels
      refine ⟨out, ?_, hspec⟩
      simp only [perform, AvlObject.insert, hout, Option.map_some, counts, and_true]
      split
      · rfl
      · rfl
  | insertOrFind p =>
      obtain ⟨out, hout, hspec⟩ :=
        AvlNodes.insertNode_okay (fun q => compare q p) (some p) ha hn0 hs.1 hs.2 hfresh hlevels
      refine ⟨out, ?_, hspec⟩
      simp only [perform, AvlObject.insertOrFind, hout, Option.map_some, counts, and_false, if_false,
        Bool.false_eq_true]
  | insertBlank k =>
      obtain ⟨out, hout, hspec⟩ :=
        AvlNodes.insertNode_okay (fun q => compareKey q k) none ha hn0 hs.1 hs.2 hfresh hlevels
      refine ⟨out, ?_, hspec⟩
      simp only [perform, AvlObject.insertBlank, hout, Option.map_some, counts, and_true]
      split
      · rfl
      · rfl

/-- A node that is added is counted, unless by `InsertOrFind`. -/
theorem Inv.added (h : Inv s t) (hn : n < 2 ^ 64) {cmp : ℕ → Ordering} {out : AvlNodes.Inserted P}
    (hfresh : n ∉ t.inorder) (hspec : AvlNodes.InsertSpec s.nodes s.root n t cmp out) :
    ∃ t', Inv ⟨out.link, if out.result = .okay then (s.nodeCount + 1) % 2 ^ 64 else s.nodeCount,
      out.nodes⟩ t' := by
  cases hspec with
  | @added t' _ hres _ hs' hperm _ =>
      have hpoints : t'.inorder.Nodup :=
        hperm.nodup_iff.mpr (List.nodup_cons.mpr ⟨hfresh, h.points.2⟩)
      have hbound : ∀ k ∈ t'.inorder, k < 2 ^ 64 := by
        intro k hk
        rcases List.mem_cons.mp (hperm.mem_iff.mp hk) with rfl | hk
        · exact hn
        · exact h.bound k hk
      have hlt := AvlObject.length_lt hpoints hs'.zero_notMem hbound (Nat.two_pow_pos 64)
      have hlen := hperm.length_eq
      rw [List.length_cons] at hlen
      refine ⟨t', ⟨hs', hpoints⟩, hbound, ?_⟩
      dsimp only
      rw [if_pos hres, h.nodeCount, ← hlen, Nat.mod_eq_of_lt hlt]
  | present _ hres hlink hnodes =>
      rw [if_neg (by rw [hres]; exact nofun), hlink, hnodes]
      exact ⟨t, h⟩

/-- A node that is taken out is not counted any more. -/
theorem Inv.removed (h : Inv s t) {cmp : ℕ → Ordering} {pred : ℕ → Bool}
    {out : AvlNodes.Removed P} (hspec : AvlNodes.RemoveSpec s.nodes s.root t cmp pred out) :
    ∃ t', Inv ⟨out.link, if out.node = 0 then s.nodeCount
      else (s.nodeCount + (2 ^ 64 - 1)) % 2 ^ 64, out.nodes⟩ t' := by
  cases hspec with
  | @removed y t' _ hnode hy hs' hperm _ =>
      have hnodup := List.nodup_cons.mp (hperm.nodup_iff.mp h.points.2)
      have hlen := hperm.length_eq
      rw [List.length_cons] at hlen
      have hlt := h.length_lt
      refine ⟨t', ⟨hs', hnodup.2⟩,
        fun k hk => h.bound k (hperm.mem_iff.mpr (List.mem_cons_of_mem y hk)), ?_⟩
      dsimp only
      rw [if_neg (hnode ▸ hy), h.nodeCount]
      omega
  | kept _ hout =>
      rw [hout]
      exact ⟨t, h⟩

/-- A payload is not part of the tree. -/
theorem Points.write (h : s.Points t) (n : ℕ) (p : P) :
    Points { s with nodes := s.nodes.setPayload n p } t :=
  ⟨h.1.keeps (AvlNodes.keeps_setPayload s.nodes) fun _ _ => List.not_mem_nil, h.2⟩

/-- The object that an insertion leaves, with a node or without. -/
theorem Inv.insertion (h : Inv s t) {op : Insertion P K} {res : HandleResult} {link : ℕ}
    (hallowed : (Op.insertion op res link).Allowed s)
    (hcounts : (Op.insertion op res link).CountsNode compare compareKey s)
    (hlevels : t.height < levels) :
    ∃ s' t', (Op.insertion op res link).perform compare compareKey levels s = some s' ∧
      Inv s' t' := by
  have hpresent : s.Present compare compareKey op →
      (t.find fun x => op.compareTo compare compareKey (s.nodes.payload x)) ≠ none := by
    intro hop hnone
    have hsome := hop t h.points
    rw [hnone] at hsome
    cases hsome
  by_cases hres : res = .okay
  · subst hres
    obtain ⟨hn0, hn, hfresh⟩ := hallowed rfl
    obtain ⟨out, hout, hspec⟩ := Insertion.perform_okay compare compareKey
      (fun _ => (.okay, link)) op rfl hn0 h.points (hfresh t h.points) hlevels
    rw [Op.perform, hout]
    have hcount : out.result = .okay → op.counts = true := by
      intro hok
      rcases hcounts with hop | ⟨-, hcounts⟩ | ⟨hne, -⟩
      · obtain ⟨x, hx⟩ := Option.ne_none_iff_exists'.mp (hpresent hop)
        cases hspec with
        | added hins =>
            rw [AvlTree.insert_of_find hx] at hins
            cases hins
        | present _ hres =>
            rw [hres] at hok
            cases hok
      · exact hcounts
      · exact absurd rfl hne
    obtain ⟨t', hinv⟩ := h.added hn (hfresh t h.points) hspec
    refine ⟨_, t', rfl, ?_⟩
    simp only [and_iff_left_of_imp hcount]
    exact hinv
  · obtain ⟨out, hout, hspec⟩ := Insertion.perform_refused compare compareKey
      (fun _ => (res, link)) op rfl hres h.points.1 h.points.2 hlevels
    rw [Op.perform, hout]
    refine ⟨_, t, rfl, ?_⟩
    cases hspec with
    | present _ hout =>
        rw [hout]
        exact h
    | absent hnone _ _ hsame =>
        have hnull : link = 0 := by
          rcases hcounts with hop | ⟨hok, -⟩ | ⟨-, hnull⟩
          · exact absurd hnone (hpresent hop)
          · exact absurd hok hres
          · exact hnull
        obtain ⟨hlink, hnodes⟩ := hsame.mpr hnull
        rw [hlink, hnodes]
        exact h

theorem Inv.removeIf (h : Inv s t) (k : K) (pred : ℕ → P → Bool) (release : HandleResult)
    (hlevels : t.height < levels) :
    ∃ s' t', (s.removeIf compareKey levels k pred release).map Prod.snd = some s' ∧ Inv s' t' := by
  obtain ⟨out, hout, hspec⟩ := AvlNodes.removeNode_spec (fun q => compareKey q k) pred
    h.points.1 h.points.2 hlevels
  obtain ⟨t', hinv⟩ := h.removed hspec
  refine ⟨_, t', ?_, hinv⟩
  rw [AvlObject.removeIf, hout, Option.map_some, Option.map_some]
  dsimp only
  split
  · rfl
  · rfl

/-- A call comes back, and the count is right after it. -/
theorem Inv.step (h : Inv s t) {op : Op P K} (hallowed : op.Allowed s)
    (hcounts : op.CountsNode compare compareKey s) (hlevels : t.height < levels) :
    ∃ s' t', op.perform compare compareKey levels s = some s' ∧ Inv s' t' := by
  cases op with
  | insertion op res link => exact h.insertion hallowed hcounts hlevels
  | remove k release => exact h.removeIf k (fun _ _ => true) release hlevels
  | removeIf k pred release => exact h.removeIf k pred release hlevels
  | clear release =>
      obtain ⟨res, nodes, hclear, -⟩ := AvlNodes.clear_spec release h.points.1 hlevels
      rw [Op.perform, AvlObject.clear, hclear]
      exact ⟨_, .null, rfl, ⟨rfl, .nil⟩, nofun, rfl⟩
  | write n p => exact ⟨_, t, rfl, h.points.write n p, h.bound, h.nodeCount⟩

theorem Run.inv (h : Run compare compareKey
      (fun s (op : Op P K) => op.Allowed s ∧ op.CountsNode compare compareKey s) s) :
    ∃ t, Inv s t := by
  induction h with
  | start nodes => exact ⟨.null, ⟨rfl, .nil⟩, nofun, rfl⟩
  | call op levels _ hkind hlevels hs' ih =>
      obtain ⟨t, hinv⟩ := ih
      obtain ⟨s'', t', hs'', hinv'⟩ := hinv.step hkind.1 hkind.2 (hlevels t hinv.points)
      rw [hs'] at hs''
      cases hs''
      exact ⟨t', hinv'⟩

/-- The count is that of the nodes in every run in which `InsertOrFind` adds no node and a refused
allocation leaves a null link; every such call comes back; and an `InsertOrFind` that does add a
node is not counted. -/
theorem Run.counted (h : Run compare compareKey
      (fun s (op : Op P K) => op.Allowed s ∧ op.CountsNode compare compareKey s) s) :
    Counted s ∧
    (∀ op : Op P K, op.Allowed s → op.CountsNode compare compareKey s →
      ∃ levels s', op.perform compare compareKey levels s = some s') ∧
    ∀ p n levels s', (Op.insertion (.insertOrFind p) .okay n : Op P K).Allowed s →
      (∀ t, s.Points t → t.height < levels) →
      ¬s.Present compare compareKey (.insertOrFind p : Insertion P K) →
      (Op.insertion (.insertOrFind p) .okay n : Op P K).perform compare compareKey levels s = some s' →
      ¬Counted s' := by
  obtain ⟨t, hinv⟩ := h.inv
  refine ⟨⟨t, hinv.points, hinv.nodeCount⟩, fun op hallowed hcounts => ?_, ?_⟩
  · obtain ⟨s', -, hs', -⟩ := hinv.step hallowed hcounts (Nat.lt_succ_self t.height)
    exact ⟨_, s', hs'⟩
  · intro p n levels s' hallowed hlevels habsent hs' hcounted
    obtain ⟨hn0, -, hfresh⟩ := hallowed rfl
    obtain ⟨out, hout, hspec⟩ := Insertion.perform_okay compare compareKey (fun _ => (.okay, n))
      (.insertOrFind p : Insertion P K) rfl hn0 hinv.points (hfresh t hinv.points)
      (hlevels t hinv.points)
    rw [Op.perform, hout, Option.map_some, Option.some.injEq] at hs'
    subst hs'
    cases hspec with
    | @added t' _ _ _ hshape hperm _ =>
        obtain ⟨u, ⟨hu, -⟩, hcount⟩ := hcounted
        have hlen := hperm.length_eq
        obtain rfl : u = t' := hu.unique hshape
        dsimp only at hcount
        rw [if_neg fun hc => Bool.false_ne_true hc.2] at hcount
        rw [List.length_cons, ← hcount, ← hinv.nodeCount] at hlen
        omega
    | present hins =>
        obtain ⟨x, hx⟩ := AvlTree.find_of_insert_error hins
        refine habsent fun u hu => ?_
        rw [hu.unique hinv.points]
        exact Option.isSome_iff_exists.mpr ⟨x, hx⟩

/-- The nodes before anything is in them. -/
def zeroes : AvlNodes ℕ := ⟨fun _ => 0, fun _ => 0, fun _ => 0, fun _ => 0⟩

/-- No tree but the empty one has a null root. -/
theorem points_null {nodes : AvlNodes P} {c : ℕ} (h : Points ⟨0, c, nodes⟩ t) : t = .null :=
  h.1.eq_zero.mp rfl

/-- A first node, counted or not. -/
theorem run_first {kind : AvlObject ℕ → Op ℕ ℕ → Prop} (op : Insertion ℕ ℕ)
    (hop : op = .insert 7 ∨ op = .insertOrFind 7)
    (hkind : kind ⟨0, 0, zeroes⟩ (.insertion op .okay 4096)) :
    ∃ s, Run Ord.compare Ord.compare kind s ∧ s.root = 4096 ∧
      s.nodeCount = if op.counts then 1 else 0 := by
  have hlevels : ∀ t, Points (⟨0, 0, zeroes⟩ : AvlObject ℕ) t → t.height < 1 := by
    intro t ht
    rw [points_null ht]
    decide
  rcases hop with rfl | rfl
  · exact ⟨_, .call _ 1 (.start zeroes) hkind hlevels rfl, rfl, rfl⟩
  · exact ⟨_, .call _ 1 (.start zeroes) hkind hlevels rfl, rfl, rfl⟩

theorem allowed_first (op : Insertion ℕ ℕ) :
    (Op.insertion op .okay 4096 : Op ℕ ℕ).Allowed (⟨0, 0, zeroes⟩ : AvlObject ℕ) := by
  refine fun _ => ⟨by decide, by decide, fun t ht => ?_⟩
  rw [points_null ht]
  exact List.not_mem_nil

theorem Run.counted_insert :
    ∃ s, Run Ord.compare Ord.compare
      (fun s (op : Op ℕ ℕ) => op.Allowed s ∧ op.CountsNode Ord.compare Ord.compare s) s ∧
      s.nodeCount = 1 ∧ Counted s := by
  obtain ⟨s, hrun, -, hcount⟩ : ∃ s, Run Ord.compare Ord.compare
      (fun s (op : Op ℕ ℕ) => op.Allowed s ∧ op.CountsNode Ord.compare Ord.compare s) s ∧
      s.root = 4096 ∧ s.nodeCount = 1 :=
    run_first (.insert 7) (Or.inl rfl) ⟨allowed_first _, Or.inr (Or.inl ⟨rfl, rfl⟩)⟩
  exact ⟨s, hrun, hcount, (Run.counted hrun).1⟩

/-- An `InsertOrFind` into the empty tree leaves a node and a count of none. -/
theorem not_counted_insertOrFind :
    ¬∀ s : AvlObject ℕ, Run Ord.compare Ord.compare (fun s (op : Op ℕ ℕ) => op.Allowed s) s →
      Counted s := by
  intro hall
  obtain ⟨s, hrun, hroot, hcount⟩ := run_first (.insertOrFind 7) (Or.inr rfl) (allowed_first _)
  obtain ⟨t, ⟨ht, -⟩, hlen⟩ := hall s hrun
  cases t with
  | null =>
      have hnull : s.root = 0 := ht
      rw [hroot] at hnull
      cases hnull
  | node l x h r =>
      rw [hcount, AvlTree.inorder_node, List.length_append, List.length_cons] at hlen
      have hzero : 0 = l.inorder.length + (r.inorder.length + 1) := hlen
      omega

end AvlObject

end Beelzebub.Utils
