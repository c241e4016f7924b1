import Mathlib.Tactic.Common

/-!
# Variables that hold keys

A list of variables, each with a pointer that may be null.  The holders of a key are the
variables with a pointer to it.  An operation on the variables changes two numbers at most: one
key loses a holder and one gains a holder, which may be the same key.  Numbers that begin equal
and are changed by the same exchange stay equal.
-/

namespace Holders

variable {κ : Type}

/-- A variable: the pointer in it, as long as it is not destroyed. -/
inductive Slot (κ : Type) where
  | destroyed
  | pointer (value : Option κ)
  deriving DecidableEq

variable [DecidableEq κ]

/-- The number of variables with a pointer to `k`. -/
def holders (l : List (Slot κ)) (k : κ) : ℕ := l.count (.pointer (some k))

/-- The numbers after `lost` has lost one and `gained` has gained one. -/
def Exchange (lost gained : Option κ) (n n' : κ → ℕ) : Prop :=
  ∀ k, n' k + (if lost = some k then 1 else 0) = n k + (if gained = some k then 1 else 0)

namespace Exchange

variable {lost gained : Option κ} {n n' n'' m m' : κ → ℕ}

theorem refl (p : Option κ) (n : κ → ℕ) : Exchange p p n n := fun _ => rfl

theorem of_eq (h : n' = n) : Exchange none none n n' := by
  intro k
  rw [h]

theorem trans {p : Option κ} (h : Exchange lost p n n') (h' : Exchange p gained n' n'') :
    Exchange lost gained n n'' := by
  intro k
  have := h k
  have := h' k
  omega

/-- What is gained by the one and lost by the other is neither gained nor lost by the sum. -/
theorem add {p : Option κ} (h : Exchange lost p n n') (h' : Exchange p gained m m') :
    Exchange lost gained (fun k => n k + m k) (fun k => n' k + m' k) := by
  intro k
  have := h k
  have := h' k
  show n' k + m' k + _ = n k + m k + _
  omega

/-- Numbers that change alike stay equal. -/
theorem unique (h : Exchange lost gained n n') (h' : Exchange lost gained m m')
    (eq : ∀ k, m k = n k) (k : κ) : m' k = n' k := by
  have := h k
  have := h' k
  have := eq k
  omega

theorem pos (h : Exchange lost gained n n') {k : κ} (hk : lost = some k)
    (ne : gained ≠ some k) : 0 < n k := by
  have := h k
  rw [if_pos hk, if_neg ne] at this
  omega

end Exchange

/-! ## The operations -/

/-- The pointer in variable `i`; null for one that is destroyed. -/
def valueAt (l : List (Slot κ)) (i : ℕ) : Option κ :=
  match l[i]? with
  | some (.pointer p) => p
  | _ => none

/-- Variable `i` is not destroyed. -/
def Alive (l : List (Slot κ)) (i : ℕ) : Prop := ∃ p, l[i]? = some (.pointer p)

omit [DecidableEq κ] in
theorem Alive.get {l : List (Slot κ)} {i : ℕ} (h : Alive l i) :
    l[i]? = some (.pointer (valueAt l i)) := by
  obtain ⟨p, hp⟩ := h
  simp [valueAt, hp]

omit [DecidableEq κ] in
theorem valueAt_eq {l : List (Slot κ)} {i : ℕ} {p : Option κ} (h : l[i]? = some (.pointer p)) :
    valueAt l i = p := by
  simp [valueAt, h]

omit [DecidableEq κ] in
theorem Alive.set {l : List (Slot κ)} {i : ℕ} (j : ℕ) (p : Option κ) (h : Alive l i) :
    Alive (l.set j (.pointer p)) i := by
  obtain ⟨q, hq⟩ := h
  have lt : i < l.length := (List.getElem?_eq_some_iff.mp hq).1
  by_cases ji : j = i
  · exact ⟨p, by rw [ji, List.getElem?_set_self lt]⟩
  · exact ⟨q, by rw [List.getElem?_set_ne ji, hq]⟩

omit [DecidableEq κ] in
theorem valueAt_set_self {l : List (Slot κ)} {i : ℕ} (p : Option κ) (h : Alive l i) :
    valueAt (l.set i (.pointer p)) i = p := by
  obtain ⟨q, hq⟩ := h
  exact valueAt_eq (List.getElem?_set_self (List.getElem?_eq_some_iff.mp hq).1)

omit [DecidableEq κ] in
theorem valueAt_set_ne {l : List (Slot κ)} {i j : ℕ} (s : Slot κ) (h : j ≠ i) :
    valueAt (l.set j s) i = valueAt l i := by
  simp only [valueAt, List.getElem?_set_ne h]

/-- A slot that is overwritten. -/
theorem count_overwritten {l : List (Slot κ)} {i : ℕ} {s : Slot κ} (t : Slot κ) (k : κ)
    (h : l[i]? = some s) :
    holders (l.set i t) k + (if s = .pointer (some k) then 1 else 0) =
      holders l k + (if t = .pointer (some k) then 1 else 0) := by
  obtain ⟨lt, rfl⟩ := List.getElem?_eq_some_iff.mp h
  have one : l[i] = .pointer (some k) → 0 < l.count (.pointer (some k)) := by
    intro e
    exact List.count_pos_iff.mpr (e ▸ List.getElem_mem lt)
  simp only [holders, List.count_set lt, beq_iff_eq]
  by_cases e : l[i] = .pointer (some k)
  · have := one e
    simp only [if_pos e]
    omega
  · simp only [if_neg e]
    omega

/-- An assignment. -/
theorem exchange_set {l : List (Slot κ)} {i : ℕ} (q : Option κ) (h : Alive l i) :
    Exchange (valueAt l i) q (holders l) (holders (l.set i (.pointer q))) := by
  intro k
  have := count_overwritten (.pointer q) k h.get
  simpa only [Slot.pointer.injEq] using this

/-- The end of a variable's life. -/
theorem exchange_destroy {l : List (Slot κ)} {i : ℕ} (h : Alive l i) :
    Exchange (valueAt l i) none (holders l) (holders (l.set i .destroyed)) := by
  intro k
  have := count_overwritten .destroyed k h.get
  simpa only [Slot.pointer.injEq, reduceCtorEq, if_false] using this

/-- A new variable. -/
theorem exchange_push (l : List (Slot κ)) (p : Option κ) :
    Exchange none p (holders l) (holders (l ++ [.pointer p])) := by
  intro k
  simp [holders, List.count_append, List.count_cons]

omit [DecidableEq κ] in
theorem Alive.push {l : List (Slot κ)} {i : ℕ} (s : Slot κ) (h : Alive l i) :
    (l ++ [s])[i]? = some (.pointer (valueAt l i)) := by
  rw [List.getElem?_append_left (List.getElem?_eq_some_iff.mp h.get).1, h.get]

/-- A new variable that another is emptied into. -/
theorem exchange_take {l : List (Slot κ)} {i : ℕ} (h : Alive l i) :
    Exchange none none (holders l)
      (holders ((l ++ [Slot.pointer (valueAt l i)]).set i (.pointer none))) := by
  have push := exchange_push l (valueAt l i)
  have there := h.push (Slot.pointer (valueAt l i))
  have empty := exchange_set none ⟨_, there⟩
  rw [valueAt_eq there] at empty
  exact push.trans empty

/-- A variable that is emptied into another, which may be itself. -/
theorem exchange_move {l : List (Slot κ)} {i j : ℕ} (hi : Alive l i) (hj : Alive l j) :
    Exchange (valueAt l i) none (holders l)
      (holders ((l.set i (.pointer (valueAt l j))).set j (.pointer none))) := by
  have set := exchange_set (valueAt l j) hi
  have empty := exchange_set none (hj.set i (valueAt l j))
  have same : valueAt (l.set i (.pointer (valueAt l j))) j = valueAt l j := by
    by_cases e : i = j
    · rw [e]
      exact valueAt_set_self _ hj
    · exact valueAt_set_ne _ e
  rw [same] at empty
  exact set.trans empty

/-- A pointer in a variable has a holder. -/
theorem holders_pos {l : List (Slot κ)} {i : ℕ} {k : κ} (h : l[i]? = some (.pointer (some k))) :
    0 < holders l k := List.count_pos_iff.mpr (List.mem_of_getElem? h)

omit [DecidableEq κ] in
/-- A variable with a pointer to a key is not destroyed. -/
theorem get_of_valueAt {l : List (Slot κ)} {i : ℕ} {k : κ} (h : valueAt l i = some k) :
    l[i]? = some (.pointer (some k)) := by
  unfold valueAt at h
  split at h
  · next p hp => rw [hp, h]
  · cases h

end Holders
