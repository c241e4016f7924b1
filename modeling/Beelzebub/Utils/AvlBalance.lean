import Beelzebub.Utils.AvlTree

/-!
# Heights in the AVL tree

Every node caches its height.  Insertion and removal change the height of a subtree by at
most one, so `balance` meets children whose heights differ by at most two, and it leaves a
tree whose heights are cached right and differ by at most one everywhere.
-/

namespace Beelzebub.Utils

namespace AvlTree

variable {α : Type} {l r t t' : AvlTree α} {x y : α} {h : Nat} {cmp : α → Ordering}

/-- The height of a tree, as it is. -/
def height : AvlTree α → Nat
  | null => 0
  | node l _ _ r => max l.height r.height + 1

/-- Cached heights are right, and the children of every node differ by at most one. -/
def Balanced : AvlTree α → Prop
  | null => True
  | node l _ h r => h = max l.height r.height + 1 ∧ l.height ≤ r.height + 1 ∧
      r.height ≤ l.height + 1 ∧ l.Balanced ∧ r.Balanced

theorem Balanced.getHeight_eq (ht : t.Balanced) : t.getHeight = t.height := by
  cases t with
  | null => rfl
  | node l x h r => exact ht.1

@[simp] theorem height_computeHeight (t : AvlTree α) : t.computeHeight.height = t.height := by
  cases t <;> rfl

theorem computeHeight_eq (hl : l.Balanced) (hr : r.Balanced) (x : α) (h : Nat) :
    (node l x h r).computeHeight = node l x (max l.height r.height + 1) r := by
  rw [computeHeight, hl.getHeight_eq, hr.getHeight_eq]

theorem balanced_computeHeight (hl : l.Balanced) (hr : r.Balanced)
    (hle : l.height ≤ r.height + 1) (hge : r.height ≤ l.height + 1) (x : α) (h : Nat) :
    (node l x h r).computeHeight.Balanced := by
  rw [computeHeight_eq hl hr]
  exact ⟨rfl, hle, hge, hl, hr⟩

theorem getBalance_eq (hl : l.Balanced) (hr : r.Balanced) (x : α) (h : Nat) :
    (node l x h r).getBalance = (r.height : Int) - l.height := by
  rw [getBalance, hl.getHeight_eq, hr.getHeight_eq]

/-! ## Rotations -/

/-- What `balance` leaves of a node whose children differ by two: a tree of the height of
the larger child, or one more. -/
def Mended (n : Nat) (t : AvlTree α) : Prop :=
  t.Balanced ∧ (t.height = n ∨ t.height = n + 1)

/-- The right child leans to the right, or not at all. -/
theorem mended_rotateLeft {rl rr : AvlTree α} {rh : Nat} (hl : l.Balanced)
    (hr : (node rl y rh rr).Balanced) (htwo : (node rl y rh rr).height = l.height + 2)
    (hlean : rl.height ≤ rr.height) :
    Mended (node rl y rh rr).height (rotateLeft (node l x h (node rl y rh rr))) := by
  obtain ⟨-, hle, hge, hrl, hrr⟩ := hr
  rw [height] at htwo ⊢
  have hinner := balanced_computeHeight hl hrl (by omega) (by omega) x h
  have hheight : (node l x h rl).computeHeight.height = max l.height rl.height + 1 := by
    rw [height_computeHeight, height]
  rw [rotateLeft]
  refine ⟨balanced_computeHeight hinner hrr ?_ ?_ y rh, ?_⟩
  · omega
  · omega
  · rw [height_computeHeight, height, hheight]
    omega

theorem mended_rotateRight {ll lr : AvlTree α} {lh : Nat} (hr : r.Balanced)
    (hl : (node ll y lh lr).Balanced) (htwo : (node ll y lh lr).height = r.height + 2)
    (hlean : lr.height ≤ ll.height) :
    Mended (node ll y lh lr).height (rotateRight (node (node ll y lh lr) x h r)) := by
  obtain ⟨-, hle, hge, hll, hlr⟩ := hl
  rw [height] at htwo ⊢
  have hinner := balanced_computeHeight hlr hr (by omega) (by omega) x h
  have hheight : (node lr x h r).computeHeight.height = max lr.height r.height + 1 := by
    rw [height_computeHeight, height]
  rw [rotateRight]
  refine ⟨balanced_computeHeight hll hinner ?_ ?_ y lh, ?_⟩
  · omega
  · omega
  · rw [height_computeHeight, height, hheight]
    omega

/-- The right child leans to the left: a double rotation. -/
theorem mended_doubleLeft {rl rr : AvlTree α} {rh : Nat} (hl : l.Balanced)
    (hr : (node rl y rh rr).Balanced) (htwo : (node rl y rh rr).height = l.height + 2)
    (hlean : rr.height < rl.height) :
    Mended (node rl y rh rr).height (rotateLeft (node l x h (rotateRight (node rl y rh rr)))) := by
  obtain ⟨-, hle, hge, hrl, hrr⟩ := hr
  rw [height] at htwo ⊢
  cases rl with
  | null => exact absurd hlean (Nat.not_lt_zero _)
  | node a z zh b =>
      obtain ⟨-, hab, hba, ha, hb⟩ := hrl
      have hz : (node a z zh b).height = max a.height b.height + 1 := rfl
      have hright := balanced_computeHeight hb hrr (by omega) (by omega) y rh
      have hleft := balanced_computeHeight hl ha (by omega) (by omega) x h
      have hhright : (node b y rh rr).computeHeight.height = max b.height rr.height + 1 := by
        rw [height_computeHeight, height]
      have hhleft : (node l x h a).computeHeight.height = max l.height a.height + 1 := by
        rw [height_computeHeight, height]
      rw [rotateRight, computeHeight, rotateLeft]
      refine ⟨balanced_computeHeight hleft hright ?_ ?_ z _, ?_⟩
      · omega
      · omega
      · rw [height_computeHeight, height, hhleft, hhright]
        omega

theorem mended_doubleRight {ll lr : AvlTree α} {lh : Nat} (hr : r.Balanced)
    (hl : (node ll y lh lr).Balanced) (htwo : (node ll y lh lr).height = r.height + 2)
    (hlean : ll.height < lr.height) :
    Mended (node ll y lh lr).height (rotateRight (node (rotateLeft (node ll y lh lr)) x h r)) := by
  obtain ⟨-, hle, hge, hll, hlr⟩ := hl
  rw [height] at htwo ⊢
  cases lr with
  | null => exact absurd hlean (Nat.not_lt_zero _)
  | node a z zh b =>
      obtain ⟨-, hab, hba, ha, hb⟩ := hlr
      have hz : (node a z zh b).height = max a.height b.height + 1 := rfl
      have hleft := balanced_computeHeight hll ha (by omega) (by omega) y lh
      have hright := balanced_computeHeight hb hr (by omega) (by omega) x h
      have hhleft : (node ll y lh a).computeHeight.height = max ll.height a.height + 1 := by
        rw [height_computeHeight, height]
      have hhright : (node b x h r).computeHeight.height = max b.height r.height + 1 := by
        rw [height_computeHeight, height]
      rw [rotateLeft, computeHeight, rotateRight]
      refine ⟨balanced_computeHeight hleft hright ?_ ?_ z _, ?_⟩
      · omega
      · omega
      · rw [height_computeHeight, height, hhleft, hhright]
        omega

/-! ## Balancing -/

/-- A node whose children differ by at most one only gets its height. -/
theorem balance_of_close (hl : l.Balanced) (hr : r.Balanced) (hle : l.height ≤ r.height + 1)
    (hge : r.height ≤ l.height + 1) (x : α) (h : Nat) :
    (node l x h r).balance = node l x (max l.height r.height + 1) r := by
  have hbal := getBalance_eq hl hr x (max l.height r.height + 1)
  rw [balance, computeHeight_eq hl hr]
  simp only
  rw [if_neg (by omega), if_neg (by omega)]

theorem mended_balance_right (hl : l.Balanced) (hr : r.Balanced)
    (htwo : r.height = l.height + 2) (x : α) (h : Nat) :
    Mended r.height (node l x h r).balance := by
  have hbal := getBalance_eq hl hr x (max l.height r.height + 1)
  rw [balance, computeHeight_eq hl hr]
  simp only
  rw [if_pos (by omega)]
  cases r with
  | null => cases htwo
  | node rl y rh rr =>
      have hlean := getBalance_eq hr.2.2.2.1 hr.2.2.2.2 y rh
      split
      next hneg => exact mended_doubleLeft hl hr htwo (by omega)
      next hneg => exact mended_rotateLeft hl hr htwo (by omega)

theorem mended_balance_left (hl : l.Balanced) (hr : r.Balanced)
    (htwo : l.height = r.height + 2) (x : α) (h : Nat) :
    Mended l.height (node l x h r).balance := by
  have hbal := getBalance_eq hl hr x (max l.height r.height + 1)
  rw [balance, computeHeight_eq hl hr]
  simp only
  rw [if_neg (by omega), if_pos (by omega)]
  cases l with
  | null => cases htwo
  | node ll y lh lr =>
      have hlean := getBalance_eq hl.2.2.2.1 hl.2.2.2.2 y lh
      split
      next hpos => exact mended_doubleRight hr hl htwo (by omega)
      next hpos => exact mended_rotateRight hr hl htwo (by omega)

/-- One child has changed by at most one. -/
theorem balance_spec (hl : l.Balanced) (hr : r.Balanced) (hle : l.height ≤ r.height + 2)
    (hge : r.height ≤ l.height + 2) (x : α) (h : Nat) :
    (node l x h r).balance.Balanced ∧
      ((node l x h r).balance.height = max l.height r.height + 1 ∨
        (l.height = r.height + 2 ∨ r.height = l.height + 2) ∧
        (node l x h r).balance.height = max l.height r.height) := by
  by_cases hright : r.height = l.height + 2
  · obtain ⟨hbal, hheight⟩ := mended_balance_right hl hr hright x h
    exact ⟨hbal, by omega⟩
  · by_cases hleft : l.height = r.height + 2
    · obtain ⟨hbal, hheight⟩ := mended_balance_left hl hr hleft x h
      exact ⟨hbal, by omega⟩
    · rw [balance_of_close hl hr (by omega) (by omega)]
      exact ⟨⟨rfl, by omega, by omega, hl, hr⟩, Or.inl rfl⟩

/-- A balanced tree is left as it is. -/
theorem Balanced.balance_eq (ht : t.Balanced) : t.balance = t := by
  cases t with
  | null => rfl
  | node l x h r =>
      obtain ⟨rfl, hle, hge, hl, hr⟩ := ht
      exact balance_of_close hl hr hle hge x _

/-! ## Operations -/

theorem Balanced.insert {create : Except HandleResult α} (ht : t.Balanced)
    (hins : t.insert cmp create = .ok (y, t')) :
    t'.Balanced ∧ (t'.height = t.height ∨ t'.height = t.height + 1) := by
  induction t generalizing t' with
  | null =>
      cases create with
      | error e => cases hins
      | ok x =>
          cases hins
          exact ⟨⟨rfl, Nat.zero_le _, Nat.zero_le _, trivial, trivial⟩, Or.inr rfl⟩
  | node l x h r ihl ihr =>
      obtain ⟨-, hle, hge, hl, hr⟩ := ht
      rw [AvlTree.insert] at hins
      rw [height]
      split at hins
      next => cases hins
      next =>
        cases hout : l.insert cmp create with
        | error e => rw [hout] at hins; cases hins
        | ok out =>
            rw [hout] at hins
            cases hins
            obtain ⟨hl', hheight⟩ := ihl hl hout
            obtain ⟨hbal, hnew⟩ := balance_spec hl' hr (by omega) (by omega) x h
            exact ⟨hbal, by omega⟩
      next =>
        cases hout : r.insert cmp create with
        | error e => rw [hout] at hins; cases hins
        | ok out =>
            rw [hout] at hins
            cases hins
            obtain ⟨hr', hheight⟩ := ihr hr hout
            obtain ⟨hbal, hnew⟩ := balance_spec hl hr' (by omega) (by omega) x h
            exact ⟨hbal, by omega⟩

/-- The height after a removal. -/
def Lowered (n : Nat) (t : AvlTree α) : Prop :=
  t.Balanced ∧ (t.height = n ∨ t.height + 1 = n)

theorem Balanced.removeMinimum (ht : t.Balanced) : Lowered t.height t.removeMinimum.2 := by
  induction t with
  | null => exact ⟨trivial, Or.inl rfl⟩
  | node l x h r ihl ihr =>
      obtain ⟨-, hle, hge, hl, hr⟩ := ht
      rw [height]
      by_cases hnull : l = null
      · subst hnull
        have hzero : (null : AvlTree α).height = 0 := rfl
        exact ⟨hr, Or.inr (by
          show r.height + 1 = _
          omega)⟩
      · rw [removeMinimum_node hnull]
        obtain ⟨hl', hheight⟩ := ihl hl
        obtain ⟨hbal, hnew⟩ := balance_spec hl' hr (by omega) (by omega) x h
        exact ⟨hbal, by
          show (node _ x h r).balance.height = _ ∨ (node _ x h r).balance.height + 1 = _
          omega⟩

theorem balanced_removeRoot (hl : l.Balanced) (hr : r.Balanced) (hle : l.height ≤ r.height + 1)
    (hge : r.height ≤ l.height + 1) (h : Nat) :
    Lowered (max l.height r.height + 1) (removeRoot l h r) := by
  have hzero : (null : AvlTree α).height = 0 := rfl
  cases l with
  | null =>
      cases r with
      | null => exact ⟨trivial, Or.inr rfl⟩
      | node rl y rh rr =>
          rw [removeRoot, hr.balance_eq]
          · exact ⟨hr, by omega⟩
          · simp
  | node ll z lh lr =>
      cases r with
      | null =>
          rw [removeRoot, hl.balance_eq]
          · exact ⟨hl, by omega⟩
          · simp
      | node rl y rh rr =>
          obtain ⟨hr', hheight⟩ := hr.removeMinimum
          rw [removeRoot]
          · cases hmin : (node rl y rh rr).removeMinimum with
            | mk res r' =>
                rw [hmin] at hr' hheight
                cases res with
                | none =>
                    have hhead := (inorder_removeMinimum (node rl y rh rr)).1
                    rw [hmin] at hhead
                    simp only [inorder_node] at hhead
                    cases hin : rl.inorder with
                    | nil => rw [hin] at hhead; cases hhead
                    | cons a as => rw [hin] at hhead; cases hhead
                | some w =>
                    simp only at hr' hheight
                    obtain ⟨hbal, hnew⟩ := balance_spec hl hr' (by omega) (by omega) w h
                    exact ⟨hbal, by
                      show (node (node ll z lh lr) w h r').balance.height = _ ∨
                        (node (node ll z lh lr) w h r').balance.height + 1 = _
                      omega⟩
          all_goals simp

/-- `RemoveIf`: as `Remove`, but the predicate has to agree. -/
def removeIf (cmp : α → Ordering) (pred : α → Bool) : AvlTree α → Option α × AvlTree α
  | null => (none, null)
  | node l x h r =>
      match cmp x with
      | .gt =>
          match l.removeIf cmp pred with
          | (none, l') => (none, node l' x h r)
          | (some y, l') => (some y, (node l' x h r).balance)
      | .lt =>
          match r.removeIf cmp pred with
          | (none, r') => (none, node l x h r')
          | (some y, r') => (some y, (node l x h r').balance)
      | .eq => if pred x then (some x, removeRoot l h r) else (none, node l x h r)

theorem remove_eq_removeIf (cmp : α → Ordering) (t : AvlTree α) :
    t.remove cmp = t.removeIf cmp fun _ => true := by
  induction t with
  | null => rfl
  | node l x h r ihl ihr =>
      rw [AvlTree.remove, removeIf, ihl, ihr]
      rfl

/-- Where nothing is removed, nothing changes. -/
theorem removeIf_none {pred : α → Bool} (hnone : (t.removeIf cmp pred).1 = none) :
    (t.removeIf cmp pred).2 = t := by
  induction t with
  | null => rfl
  | node l x h r ihl ihr =>
      rw [removeIf] at hnone ⊢
      cases hx : cmp x with
      | gt =>
          simp only [hx] at hnone ⊢
          cases hout : l.removeIf cmp pred with
          | mk res l' =>
              rw [hout] at hnone ihl
              cases res with
              | none => exact congrArg (fun l => node l x h r) (ihl rfl)
              | some y => cases hnone
      | lt =>
          simp only [hx] at hnone ⊢
          cases hout : r.removeIf cmp pred with
          | mk res r' =>
              rw [hout] at hnone ihr
              cases res with
              | none => exact congrArg (fun r => node l x h r) (ihr rfl)
              | some y => cases hnone
      | eq =>
          simp only [hx] at hnone ⊢
          split at hnone
          next => cases hnone
          next hpred => rw [if_neg hpred]

theorem Balanced.removeIf (cmp : α → Ordering) (pred : α → Bool) (ht : t.Balanced) :
    Lowered t.height (t.removeIf cmp pred).2 := by
  cases hres : (t.removeIf cmp pred).1 with
  | none =>
      rw [removeIf_none hres]
      exact ⟨ht, Or.inl rfl⟩
  | some y =>
      induction t with
      | null => cases hres
      | node l x h r ihl ihr =>
          obtain ⟨-, hle, hge, hl, hr⟩ := ht
          rw [AvlTree.removeIf] at hres ⊢
          rw [height]
          cases hx : cmp x with
          | gt =>
              simp only [hx] at hres ⊢
              cases hout : l.removeIf cmp pred with
              | mk res l' =>
                  rw [hout] at hres ihl
                  cases res with
                  | none => cases hres
                  | some z =>
                      obtain ⟨hl', hheight⟩ := ihl hl hres
                      simp only at hl' hheight
                      obtain ⟨hbal, hnew⟩ := balance_spec hl' hr (by omega) (by omega) x h
                      exact ⟨hbal, by
                        show (node l' x h r).balance.height = _ ∨
                          (node l' x h r).balance.height + 1 = _
                        omega⟩
          | lt =>
              simp only [hx] at hres ⊢
              cases hout : r.removeIf cmp pred with
              | mk res r' =>
                  rw [hout] at hres ihr
                  cases res with
                  | none => cases hres
                  | some z =>
                      obtain ⟨hr', hheight⟩ := ihr hr hres
                      simp only at hr' hheight
                      obtain ⟨hbal, hnew⟩ := balance_spec hl hr' (by omega) (by omega) x h
                      exact ⟨hbal, by
                        show (node l x h r').balance.height = _ ∨
                          (node l x h r').balance.height + 1 = _
                        omega⟩
          | eq =>
              simp only [hx] at hres ⊢
              split at hres
              next hpred =>
                rw [if_pos hpred]
                exact balanced_removeRoot hl hr hle hge h
              next => cases hres

end AvlTree

end Beelzebub.Utils
