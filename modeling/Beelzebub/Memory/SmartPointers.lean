import Beelzebub.Lib.Holders
import Mathlib.Algebra.Ring.Nat
import Mathlib.Logic.Function.Basic

/-!
# Smart pointers

A `GlobalPointer` holds a reference to an object.  A `LocalPointer` refers to a `LocalCopy`, which
has a count of its own and stands for one reference to the object.

A step is one call of a constructor, an assignment or a destructor, by a single thread.  A
parameter that is passed by value is a variable that the caller makes before the call and destroys
after it.
-/

namespace Beelzebub.SmartPointers

open Holders

/-! ## The code -/

/-- `releases` is only for the record: the number of calls of `ReleaseMemory`. -/
structure ReferenceCounted where
  acquireCount : BitVec 64
  releaseCount : BitVec 64
  releases : ℕ

namespace ReferenceCounted

def acquireReference (r : ReferenceCounted) : ReferenceCounted :=
  { r with acquireCount := r.acquireCount + 1 }

def releaseReference (r : ReferenceCounted) : ReferenceCounted :=
  let count := r.releaseCount + 1
  { r with
    releaseCount := count
    releases := if count = r.acquireCount then r.releases + 1 else r.releases }

end ReferenceCounted

structure LocalCopy (ι : Type) where
  count : BitVec 64
  pointer : ι

/-- The objects, the variables of the three kinds, and the `LocalCopy`s; one that is deleted is
`none`. -/
structure State (ι : Type) where
  objects : ι → ReferenceCounted
  globals : List (Slot ι)
  locals : List (Slot ℕ)
  uniques : List (Slot ι)
  copies : List (Option (LocalCopy ι))

namespace State

variable {ι : Type}

section Code

variable [DecidableEq ι]

/-- Objects that nothing refers to yet. -/
def initial : State ι where
  objects _ := ⟨0, 0, 0⟩
  globals := []
  locals := []
  uniques := []
  copies := []

/-! ### The fields `Pointer` -/

def globalPointer (s : State ι) (g : ℕ) : Option ι := valueAt s.globals g

def localPointer (s : State ι) (l : ℕ) : Option ℕ := valueAt s.locals l

def uniquePointer (s : State ι) (u : ℕ) : Option ι := valueAt s.uniques u

/-- The `LocalCopy` at an address, if it is not deleted. -/
def copyAt (s : State ι) (c : ℕ) : Option (LocalCopy ι) := s.copies[c]?.join

/-- `ptr.Pointer->Pointer`. -/
def pointee (s : State ι) (l : ℕ) : Option ι := (s.localPointer l).bind fun c =>
  (s.copyAt c).map LocalCopy.pointer

def setGlobal (g : ℕ) (p : Option ι) (s : State ι) : State ι :=
  { s with globals := s.globals.set g (.pointer p) }

def setLocal (l : ℕ) (p : Option ℕ) (s : State ι) : State ι :=
  { s with locals := s.locals.set l (.pointer p) }

def setUnique (u : ℕ) (p : Option ι) (s : State ι) : State ι :=
  { s with uniques := s.uniques.set u (.pointer p) }

def pushGlobal (p : Option ι) (s : State ι) : State ι :=
  { s with globals := s.globals ++ [.pointer p] }

def pushLocal (p : Option ℕ) (s : State ι) : State ι :=
  { s with locals := s.locals ++ [.pointer p] }

/-! ### Reference counting -/

/-- `AcquireReference`, unless the pointer is null. -/
def acquire : Option ι → State ι → State ι
  | none, s => s
  | some o, s => { s with
      objects := Function.update s.objects o (s.objects o).acquireReference }

/-- `ReleaseReference`, unless the pointer is null. -/
def release : Option ι → State ι → State ι
  | none, s => s
  | some o, s => { s with
      objects := Function.update s.objects o (s.objects o).releaseReference }

/-- `LocalCopy::AcquireReference`, unless the pointer is null.  Nothing is said of a `LocalCopy`
that is deleted. -/
def acquireCopy : Option ℕ → State ι → State ι
  | none, s => s
  | some c, s => match s.copyAt c with
    | none => s
    | some copy => { s with copies := s.copies.set c (some { copy with count := copy.count + 1 }) }

/-- `LocalCopy::ReleaseReference`, unless the pointer is null. -/
def releaseCopy : Option ℕ → State ι → State ι
  | none, s => s
  | some c, s => match s.copyAt c with
    | none => s
    | some copy => { s with
        copies := s.copies.set c
          (if copy.count - 1 = 0 then none else some { copy with count := copy.count - 1 }) }

/-- `new LocalCopy(ptr, increaseCount)`; its address is the length of `copies`. -/
def newLocalCopy (o : ι) (increaseCount : Bool) (s : State ι) : State ι :=
  let s := { s with copies := s.copies ++ [some ⟨1, o⟩] }
  if increaseCount then s.acquire (some o) else s

/-! ### `GlobalPointer` -/

def globalCopy (other : ℕ) (s : State ι) : State ι :=
  let p := s.globalPointer other
  (s.pushGlobal p).acquire p

def globalMove (other : ℕ) (s : State ι) : State ι :=
  let p := s.globalPointer other
  (s.pushGlobal p).setGlobal other none

def globalFromLocal (ptr : ℕ) (s : State ι) : State ι :=
  let p := s.pointee ptr
  (s.pushGlobal p).acquire p

def globalAssign (this other : ℕ) (s : State ι) : State ι :=
  if s.globalPointer this = s.globalPointer other then s
  else
    let p := s.globalPointer other
    ((s.release (s.globalPointer this)).setGlobal this p).acquire p

def globalAssignMove (this other : ℕ) (s : State ι) : State ι :=
  if s.globalPointer this = s.globalPointer other then s.setGlobal other none
  else
    let p := s.globalPointer other
    ((s.release (s.globalPointer this)).setGlobal this p).setGlobal other none

def globalAssignLocal (this other : ℕ) (s : State ι) : State ι :=
  match s.localPointer other with
  | none => s.release (s.globalPointer this)
  | some _ =>
      let p := s.pointee other
      ((s.release (s.globalPointer this)).setGlobal this p).acquire p

def globalDestroy (this : ℕ) (s : State ι) : State ι :=
  let s := s.release (s.globalPointer this)
  { s with globals := s.globals.set this .destroyed }

/-! ### `LocalPointer` -/

def localCopy (ptr : ℕ) (s : State ι) : State ι :=
  let p := s.localPointer ptr
  (s.pushLocal p).acquireCopy p

def localMove (other : ℕ) (s : State ι) : State ι :=
  let p := s.localPointer other
  (s.pushLocal p).setLocal other none

def localFromRaw (ptr : Option ι) (s : State ι) : State ι :=
  match ptr with
  | none => s.pushLocal none
  | some o => (s.newLocalCopy o true).pushLocal (some s.copies.length)

def localFromUnique (other : ℕ) (s : State ι) : State ι :=
  (s.localFromRaw (s.uniquePointer other)).setUnique other none

def localFromGlobal (other : ℕ) (s : State ι) : State ι := s.localFromRaw (s.globalPointer other)

def localFromGlobalMove (other : ℕ) (s : State ι) : State ι :=
  match s.globalPointer other with
  | none => s.pushLocal none
  | some o =>
      ((s.newLocalCopy o false).pushLocal (some s.copies.length)).setGlobal other none

def localAssign (this other : ℕ) (s : State ι) : State ι :=
  if s.localPointer this = s.localPointer other then s
  else
    let p := s.localPointer other
    ((s.releaseCopy (s.localPointer this)).setLocal this p).acquireCopy p

def localAssignMove (this other : ℕ) (s : State ι) : State ι :=
  ((s.releaseCopy (s.localPointer this)).setLocal this (s.localPointer other)).setLocal other none

def localAssignRaw (this : ℕ) (other : Option ι) (s : State ι) : State ι :=
  match other with
  | none => s.releaseCopy (s.localPointer this)
  | some o => ((s.releaseCopy (s.localPointer this)).newLocalCopy o true).setLocal this
      (some s.copies.length)

def localAssignGlobal (this other : ℕ) (s : State ι) : State ι :=
  s.localAssignRaw this (s.globalPointer other)

/-- Other than from a raw pointer, null is stored. -/
def localAssignUnique (this other : ℕ) (s : State ι) : State ι :=
  match s.uniquePointer other with
  | none => (s.releaseCopy (s.localPointer this)).setLocal this none
  | some o => (s.localAssignRaw this (some o)).setUnique other none

def localDestroy (this : ℕ) (s : State ι) : State ι :=
  let s := s.releaseCopy (s.localPointer this)
  { s with locals := s.locals.set this .destroyed }

/-! ### Programs -/

inductive Call (ι : Type) where
  | uniqueNew (ptr : Option ι)
  | globalNew
  | globalCopy (other : ℕ)
  | globalMove (other : ℕ)
  | globalFromLocal (ptr : ℕ)
  | globalAssign (this other : ℕ)
  | globalAssignMove (this other : ℕ)
  | globalAssignLocal (this other : ℕ)
  | globalDestroy (this : ℕ)
  | localNew
  | localCopy (ptr : ℕ)
  | localMove (other : ℕ)
  | localFromUnique (other : ℕ)
  | localFromGlobal (other : ℕ)
  | localFromGlobalMove (other : ℕ)
  | localFromRaw (ptr : Option ι)
  | localAssign (this other : ℕ)
  | localAssignMove (this other : ℕ)
  | localAssignUnique (this other : ℕ)
  | localAssignGlobal (this other : ℕ)
  | localAssignRaw (this : ℕ) (other : Option ι)
  | localDestroy (this : ℕ)

def perform (s : State ι) : Call ι → State ι
  | .uniqueNew ptr => { s with uniques := s.uniques ++ [.pointer ptr] }
  | .globalNew => s.pushGlobal none
  | .globalCopy other => s.globalCopy other
  | .globalMove other => s.globalMove other
  | .globalFromLocal ptr => s.globalFromLocal ptr
  | .globalAssign this other => s.globalAssign this other
  | .globalAssignMove this other => s.globalAssignMove this other
  | .globalAssignLocal this other => s.globalAssignLocal this other
  | .globalDestroy this => s.globalDestroy this
  | .localNew => s.pushLocal none
  | .localCopy ptr => s.localCopy ptr
  | .localMove other => s.localMove other
  | .localFromUnique other => s.localFromUnique other
  | .localFromGlobal other => s.localFromGlobal other
  | .localFromGlobalMove other => s.localFromGlobalMove other
  | .localFromRaw ptr => s.localFromRaw ptr
  | .localAssign this other => s.localAssign this other
  | .localAssignMove this other => s.localAssignMove this other
  | .localAssignUnique this other => s.localAssignUnique this other
  | .localAssignGlobal this other => s.localAssignGlobal this other
  | .localAssignRaw this other => s.localAssignRaw this other
  | .localDestroy this => s.localDestroy this

/-- The object of a pointer that is not counted still exists. -/
def Exists (s : State ι) (p : Option ι) : Prop := ∀ o, p = some o → (s.objects o).releases = 0

/-- Only variables that are not destroyed take part, and a pointer that is not counted is to an
object that still exists. -/
def Enabled (s : State ι) : Call ι → Prop
  | .uniqueNew _ | .globalNew | .localNew => True
  | .globalCopy g | .globalMove g | .globalDestroy g | .localFromGlobal g
  | .localFromGlobalMove g => Alive s.globals g
  | .globalAssign g h | .globalAssignMove g h => Alive s.globals g ∧ Alive s.globals h
  | .globalAssignLocal g l => Alive s.globals g ∧ Alive s.locals l
  | .globalFromLocal l | .localCopy l | .localMove l | .localDestroy l => Alive s.locals l
  | .localFromUnique u => Alive s.uniques u ∧ s.Exists (s.uniquePointer u)
  | .localFromRaw p => s.Exists p
  | .localAssign l m | .localAssignMove l m => Alive s.locals l ∧ Alive s.locals m
  | .localAssignUnique l u => Alive s.locals l ∧ Alive s.uniques u ∧ s.Exists (s.uniquePointer u)
  | .localAssignGlobal l g => Alive s.locals l ∧ Alive s.globals g
  | .localAssignRaw l p => Alive s.locals l ∧ s.Exists p

inductive Reachable (kind : State ι → Call ι → Prop) : State ι → Prop
  | start : Reachable kind initial
  | step {s : State ι} (a : Call ι) : Reachable kind s → s.Enabled a → kind s a →
      Reachable kind (s.perform a)

/-! ## What is asked -/

/-- The `LocalCopy`s that refer to an object. -/
def copiesOf (s : State ι) (o : ι) : ℕ :=
  s.copies.countP fun c => match c with
    | none => false
    | some copy => copy.pointer = o

/-- The `GlobalPointer`s and `LocalCopy`s that refer to an object. -/
def number (s : State ι) (o : ι) : ℕ := s.copiesOf o + holders s.globals o

/-- `AcquireCount - ReleaseCount`. -/
def balance (s : State ι) (o : ι) : ℕ :=
  ((s.objects o).acquireCount - (s.objects o).releaseCount).toNat

/-- What a call that leads from `s` to `s'` owes. -/
structure Kept (s s' : State ι) : Prop where
  counted : ∀ o, s'.balance o = s'.number o
  released : ∀ o, (s'.objects o).releases =
    (s.objects o).releases + if s.number o = 1 ∧ s'.number o = 0 then 1 else 0
  globals : ∀ g o, s'.globalPointer g = some o → (s'.objects o).releases = 0
  locals : ∀ l c, s'.localPointer l = some c →
    ∃ copy, s'.copyAt c = some copy ∧ (s'.objects copy.pointer).releases = 0

/-! ## The condition -/

/-- If the pointer is to a `LocalCopy`, then so is that of another `LocalPointer`. -/
def Shared (s : State ι) (p : Option ℕ) : Prop := ∀ c, p = some c → 2 ≤ holders s.locals c

/-- Pointers do not run out. -/
structure Room (s : State ι) : Prop where
  number : ∀ o, s.number o + 1 < 2 ^ 64
  holders : ∀ c, holders s.locals c + 1 < 2 ^ 64

/-- No `LocalCopy` loses its last `LocalPointer`; a `GlobalPointer` is not moved to one with the
same pointer, unless that is null; and null is assigned over a pointer only by the operators that
store it. -/
def Careful (s : State ι) (a : Call ι) : Prop :=
  s.Room ∧ match a with
    | .globalAssignMove this other =>
        s.globalPointer this = s.globalPointer other → s.globalPointer this = none
    | .globalAssignLocal this other => s.localPointer other = none → s.globalPointer this = none
    | .localAssign this other =>
        s.localPointer this ≠ s.localPointer other → s.Shared (s.localPointer this)
    | .localAssignMove this _ | .localAssignUnique this _ | .localDestroy this =>
        s.Shared (s.localPointer this)
    | .localAssignGlobal this other =>
        s.Shared (s.localPointer this) ∧ (s.globalPointer other = none → s.localPointer this = none)
    | .localAssignRaw this other =>
        s.Shared (s.localPointer this) ∧ (other = none → s.localPointer this = none)
    | _ => True

end Code

/-! ## The fields that an operation leaves alone -/

section Frame

variable [DecidableEq ι] (s : State ι) (p : Option ι)

@[simp] theorem acquire_globals : (s.acquire p).globals = s.globals := by cases p <;> rfl

@[simp] theorem acquire_locals : (s.acquire p).locals = s.locals := by cases p <;> rfl

@[simp] theorem acquire_copies : (s.acquire p).copies = s.copies := by cases p <;> rfl

@[simp] theorem release_globals : (s.release p).globals = s.globals := by cases p <;> rfl

@[simp] theorem release_locals : (s.release p).locals = s.locals := by cases p <;> rfl

@[simp] theorem release_copies : (s.release p).copies = s.copies := by cases p <;> rfl

theorem acquire_objects {t : State ι} (h : s.objects = t.objects) :
    (s.acquire p).objects = (t.acquire p).objects := by
  cases p with
  | none => exact h
  | some o => simp only [acquire, h]

end Frame

section CopyFrame

variable (s : State ι) (q : Option ℕ)

/-- A count of a `LocalCopy` changes nothing but the `LocalCopy`s. -/
theorem acquireCopy_frame : ∃ copies, s.acquireCopy q = { s with copies := copies } := by
  cases q with
  | none => exact ⟨_, rfl⟩
  | some c =>
      cases h : s.copyAt c with
      | none =>
          simp only [acquireCopy, h]
          exact ⟨s.copies, rfl⟩
      | some copy =>
          simp only [acquireCopy, h]
          exact ⟨_, rfl⟩

theorem releaseCopy_frame : ∃ copies, s.releaseCopy q = { s with copies := copies } := by
  cases q with
  | none => exact ⟨_, rfl⟩
  | some c =>
      cases h : s.copyAt c with
      | none =>
          simp only [releaseCopy, h]
          exact ⟨s.copies, rfl⟩
      | some copy =>
          simp only [releaseCopy, h]
          exact ⟨_, rfl⟩

@[simp] theorem acquireCopy_objects : (s.acquireCopy q).objects = s.objects := by
  obtain ⟨copies, h⟩ := s.acquireCopy_frame q
  rw [h]

@[simp] theorem acquireCopy_globals : (s.acquireCopy q).globals = s.globals := by
  obtain ⟨copies, h⟩ := s.acquireCopy_frame q
  rw [h]

@[simp] theorem acquireCopy_locals : (s.acquireCopy q).locals = s.locals := by
  obtain ⟨copies, h⟩ := s.acquireCopy_frame q
  rw [h]

@[simp] theorem releaseCopy_objects : (s.releaseCopy q).objects = s.objects := by
  obtain ⟨copies, h⟩ := s.releaseCopy_frame q
  rw [h]

@[simp] theorem releaseCopy_globals : (s.releaseCopy q).globals = s.globals := by
  obtain ⟨copies, h⟩ := s.releaseCopy_frame q
  rw [h]

@[simp] theorem releaseCopy_locals : (s.releaseCopy q).locals = s.locals := by
  obtain ⟨copies, h⟩ := s.releaseCopy_frame q
  rw [h]

@[simp] theorem releaseCopy_length : (s.releaseCopy q).copies.length = s.copies.length := by
  cases q with
  | none => rfl
  | some c => cases h : s.copyAt c <;> simp [releaseCopy, h]

end CopyFrame

/-! ## The counts of the objects -/

section Objects

variable [DecidableEq ι]

omit [DecidableEq ι] in
theorem balance_congr {s t : State ι} (h : s.objects = t.objects) : s.balance = t.balance := by
  funext o
  simp only [balance, h]

theorem balance_acquire {s : State ι} {p : Option ι}
    (room : ∀ o, p = some o → s.balance o + 1 < 2 ^ 64) :
    Exchange none p s.balance (s.acquire p).balance := by
  cases p with
  | none => exact Exchange.refl _ _
  | some o =>
      intro k
      by_cases ko : o = k
      · subst ko
        have := room o rfl
        simp only [acquire, balance, Function.update_self, ReferenceCounted.acquireReference] at *
        simp only [reduceCtorEq, if_false, if_true]
        bv_omega
      · simp [acquire, balance, Function.update_of_ne (Ne.symm ko), ko]

theorem balance_release {s : State ι} {p : Option ι}
    (held : ∀ o, p = some o → 0 < s.balance o) :
    Exchange p none s.balance (s.release p).balance := by
  cases p with
  | none => exact Exchange.refl _ _
  | some o =>
      intro k
      by_cases ko : o = k
      · subst ko
        have := held o rfl
        simp only [release, balance, Function.update_self, ReferenceCounted.releaseReference] at *
        simp only [reduceCtorEq, if_false, if_true]
        bv_omega
      · simp [release, balance, Function.update_of_ne (Ne.symm ko), ko]

@[simp] theorem acquire_releases (s : State ι) (p : Option ι) (o : ι) :
    ((s.acquire p).objects o).releases = (s.objects o).releases := by
  cases p with
  | none => rfl
  | some q =>
      by_cases oq : o = q
      · simp [acquire, ReferenceCounted.acquireReference, oq]
      · simp [acquire, Function.update_of_ne oq]

/-- `ReleaseMemory` is called when the last reference is released. -/
theorem release_releases (s : State ι) (p : Option ι) (o : ι) :
    ((s.release p).objects o).releases =
      (s.objects o).releases + if p = some o ∧ s.balance o = 1 then 1 else 0 := by
  cases p with
  | none => simp [release]
  | some q =>
      by_cases oq : q = o
      · subst oq
        have last : (s.objects q).releaseCount + 1 = (s.objects q).acquireCount ↔
            s.balance q = 1 := by
          unfold balance
          constructor <;> intro h <;> bv_omega
        simp only [release, Function.update_self, ReferenceCounted.releaseReference, true_and,
          last]
        split <;> rfl
      · simp [release, Function.update_of_ne (Ne.symm oq), oq]

end Objects

/-! ## The counts of the `LocalCopy`s -/

/-- The count of a `LocalCopy`; zero for one that is deleted. -/
def countOf : Option (LocalCopy ι) → ℕ
  | none => 0
  | some copy => copy.count.toNat

def countAt (s : State ι) (c : ℕ) : ℕ := countOf (s.copyAt c)

theorem copyAt_set {s : State ι} {c : ℕ} (x : Option (LocalCopy ι)) (lt : c < s.copies.length)
    (k : ℕ) :
    copyAt { s with copies := s.copies.set c x } k = if c = k then x else s.copyAt k := by
  by_cases ck : c = k
  · subst ck
    simp [copyAt, List.getElem?_set_self lt]
  · simp [copyAt, List.getElem?_set_ne ck, ck]

theorem get_of_copyAt {s : State ι} {c : ℕ} {copy : LocalCopy ι} (h : s.copyAt c = some copy) :
    s.copies[c]? = some (some copy) := by
  simpa [copyAt, Option.join_eq_some_iff] using h

theorem lt_of_copyAt {s : State ι} {c : ℕ} {copy : LocalCopy ι} (h : s.copyAt c = some copy) :
    c < s.copies.length := (List.getElem?_eq_some_iff.mp (get_of_copyAt h)).1

theorem copyAt_of_pos {s : State ι} {c : ℕ} (h : 0 < s.countAt c) :
    ∃ copy, s.copyAt c = some copy ∧ s.countAt c = copy.count.toNat := by
  simp only [countAt] at *
  cases e : s.copyAt c with
  | none => simp [e, countOf] at h
  | some copy => exact ⟨copy, rfl, rfl⟩

theorem countAt_set {s : State ι} {c : ℕ} (x : Option (LocalCopy ι)) (lt : c < s.copies.length)
    (k : ℕ) :
    countAt { s with copies := s.copies.set c x } k = if c = k then countOf x else s.countAt k := by
  simp only [countAt, copyAt_set x lt]
  split <;> rfl

theorem countAt_acquireCopy {s : State ι} {q : Option ℕ}
    (held : ∀ c, q = some c → 0 < s.countAt c ∧ s.countAt c + 1 < 2 ^ 64) :
    Exchange none q s.countAt (s.acquireCopy q).countAt := by
  cases q with
  | none => exact Exchange.refl _ _
  | some c =>
      intro k
      obtain ⟨pos, room⟩ := held c rfl
      obtain ⟨copy, there, count⟩ := copyAt_of_pos pos
      have more : (copy.count + 1).toNat = s.countAt c + 1 := by bv_omega
      simp only [acquireCopy, there, countAt_set _ (lt_of_copyAt there), countOf, more,
        reduceCtorEq, if_false, Option.some.injEq]
      split
      · next ck => rw [ck]
      · rfl

theorem countAt_releaseCopy {s : State ι} {q : Option ℕ}
    (held : ∀ c, q = some c → 2 ≤ s.countAt c) :
    Exchange q none s.countAt (s.releaseCopy q).countAt := by
  cases q with
  | none => exact Exchange.refl _ _
  | some c =>
      intro k
      have two := held c rfl
      obtain ⟨copy, there, count⟩ := copyAt_of_pos (Nat.lt_of_lt_of_le Nat.two_pos two)
      have less : (copy.count - 1).toNat = s.countAt c - 1 := by bv_omega
      have left : copy.count - 1 ≠ 0 := by
        intro h
        bv_omega
      simp only [releaseCopy, there, if_neg left, countAt_set _ (lt_of_copyAt there), countOf, less,
        reduceCtorEq, if_false, Option.some.injEq]
      split
      · next ck =>
          subst ck
          omega
      · rfl

/-- A `LocalCopy` is new where there was none. -/
theorem countAt_append (s : State ι) (o : ι) :
    Exchange none (some s.copies.length) s.countAt
      (countAt { s with copies := s.copies ++ [some ⟨1, o⟩] }) := by
  intro k
  simp only [countAt, copyAt, List.getElem?_append, reduceCtorEq, if_false, Option.some.injEq]
  by_cases lt : k < s.copies.length
  · simp [lt, Nat.ne_of_gt lt]
  · by_cases eq : s.copies.length = k
    · subst eq
      simp [countOf]
    · have beyond : k - s.copies.length ≠ 0 := by omega
      simp [lt, eq, beyond]

/-! ## The number of pointers to an object -/

section Numbers

variable [DecidableEq ι]

/-- A count of a `LocalCopy` that is not deleted does not change the object it is for. -/
theorem copiesOf_set {s : State ι} {c : ℕ} {copy : LocalCopy ι} (h : s.copyAt c = some copy)
    (n : BitVec 64) (o : ι) :
    copiesOf { s with copies := s.copies.set c (some { copy with count := n }) } o =
      s.copiesOf o := by
  have there := get_of_copyAt h
  obtain ⟨lt, get⟩ := List.getElem?_eq_some_iff.mp there
  have one : copy.pointer = o → 0 < s.copiesOf o := by
    intro e
    exact List.countP_pos_iff.mpr ⟨some copy, get ▸ List.getElem_mem lt, by simp [e]⟩
  simp only [copiesOf, List.countP_set lt, get] at *
  by_cases e : copy.pointer = o
  · have := one e
    simp only [e, decide_true, if_true] at *
    omega
  · simp [e]

theorem copiesOf_acquireCopy (s : State ι) (q : Option ℕ) :
    (s.acquireCopy q).copiesOf = s.copiesOf := by
  funext o
  cases q with
  | none => rfl
  | some c =>
      cases h : s.copyAt c with
      | none => simp only [acquireCopy, h]
      | some copy =>
          simp only [acquireCopy, h]
          exact copiesOf_set h _ o

theorem copiesOf_releaseCopy {s : State ι} {q : Option ℕ}
    (held : ∀ c, q = some c → 2 ≤ s.countAt c) : (s.releaseCopy q).copiesOf = s.copiesOf := by
  funext o
  cases q with
  | none => rfl
  | some c =>
      have two := held c rfl
      obtain ⟨copy, h, count⟩ := copyAt_of_pos (Nat.lt_of_lt_of_le Nat.two_pos two)
      have left : copy.count - 1 ≠ 0 := by
        intro e
        bv_omega
      simp only [releaseCopy, h, if_neg left]
      exact copiesOf_set h _ o

theorem copiesOf_append (s : State ι) (o : ι) :
    Exchange none (some o) s.copiesOf
      (copiesOf { s with copies := s.copies ++ [some ⟨1, o⟩] }) := by
  intro k
  simp [copiesOf, List.countP_append, List.countP_cons]

theorem copiesOf_le_number (s : State ι) (o : ι) : s.copiesOf o ≤ s.number o :=
  Nat.le_add_right _ _

theorem number_of_global {s : State ι} {g : ℕ} {o : ι} (h : s.globalPointer g = some o) :
    0 < s.number o := by
  have := holders_pos (get_of_valueAt h)
  unfold number
  omega

theorem copiesOf_pos {s : State ι} {c : ℕ} {copy : LocalCopy ι} (h : s.copyAt c = some copy) :
    0 < s.copiesOf copy.pointer :=
  List.countP_pos_iff.mpr ⟨some copy, List.mem_of_getElem? (get_of_copyAt h), by simp⟩

/-! ## The invariant -/

/-- The counts of the objects and of the `LocalCopy`s are the numbers of pointers, and no pointer
is to an object that was released. -/
structure Inv (s : State ι) : Prop where
  counted : ∀ o, s.balance o = s.number o
  linked : ∀ c, s.countAt c = holders s.locals c
  dead : ∀ o, 0 < s.number o → (s.objects o).releases = 0

theorem inv_initial : Inv (initial : State ι) where
  counted _ := by simp [initial, balance, number, copiesOf, holders]
  linked _ := rfl
  dead _ _ := rfl

variable {s s' : State ι}

/-- A `LocalPointer` that is not null is to a `LocalCopy` that is not deleted. -/
theorem Inv.copy (inv : Inv s) {l c : ℕ} (h : s.localPointer l = some c) :
    ∃ copy, s.copyAt c = some copy ∧ s.pointee l = some copy.pointer := by
  have held := holders_pos (get_of_valueAt h)
  rw [← inv.linked] at held
  obtain ⟨copy, there, -⟩ := copyAt_of_pos held
  exact ⟨copy, there, by simp [pointee, h, there]⟩

theorem Inv.number_of_pointee (inv : Inv s) {l : ℕ} {o : ι} (h : s.pointee l = some o) :
    0 < s.copiesOf o := by
  cases e : s.localPointer l with
  | none => simp [pointee, e] at h
  | some c =>
      obtain ⟨copy, there, eq⟩ := inv.copy e
      cases eq.symm.trans h
      exact copiesOf_pos there

/-- What a call does: an object loses a pointer and its reference is released, and one gains a
pointer and a reference to it is acquired. -/
structure Effect (lost gained : Option ι) (s s' : State ι) : Prop where
  objects : s'.objects = ((s.release lost).acquire gained).objects
  number : Exchange lost gained s.number s'.number
  both : ∀ o, lost = some o → gained = some o → 2 ≤ s.number o
  alive : s.Exists gained
  linked : ∀ c, s'.countAt c = holders s'.locals c

variable {lost gained : Option ι}

/-- A loss is of an object that has a pointer. -/
theorem Effect.held (e : Effect lost gained s s') {o : ι} (h : lost = some o) :
    0 < s.number o := by
  by_cases same : gained = some o
  · exact Nat.lt_of_lt_of_le Nat.two_pos (e.both o h same)
  · exact e.number.pos h same

theorem Effect.releases (e : Effect lost gained s s') (inv : Inv s) (o : ι) :
    (s'.objects o).releases = (s.objects o).releases +
      if s.number o = 1 ∧ s'.number o = 0 then 1 else 0 := by
  have exchange := e.number o
  have last : lost = some o ∧ s.balance o = 1 ↔ s.number o = 1 ∧ s'.number o = 0 := by
    rw [inv.counted]
    constructor
    · rintro ⟨h, one⟩
      have other : gained ≠ some o := by
        intro same
        have := e.both o h same
        omega
      rw [if_pos h, if_neg other] at exchange
      omega
    · rintro ⟨one, zero⟩
      refine ⟨?_, one⟩
      by_contra h
      rw [if_neg h] at exchange
      omega
  rw [e.objects, acquire_releases, release_releases]
  simp only [last]

theorem Effect.inv (e : Effect lost gained s s') (inv : Inv s) (room : s.Room) : Inv s' where
  counted := by
    have release := balance_release (fun o h => by
      rw [inv.counted]
      exact e.held h : ∀ o, lost = some o → 0 < s.balance o)
    have acquire : Exchange none gained (s.release lost).balance s'.balance := by
      rw [balance_congr e.objects]
      apply balance_acquire
      intro o _
      have less := release o
      have := room.number o
      rw [inv.counted] at less
      simp only [reduceCtorEq, if_false] at less
      omega
    exact (e.number).unique (release.trans acquire) inv.counted
  linked := e.linked
  dead o pos := by
    have exchange := e.number o
    have before : (s.objects o).releases = 0 := by
      by_cases h : 0 < s.number o
      · exact inv.dead o h
      · by_cases same : gained = some o
        · exact e.alive o same
        · rw [if_neg same] at exchange
          omega
    rw [e.releases inv, before, if_neg]
    omega

theorem Effect.kept (e : Effect lost gained s s') (inv : Inv s) (room : s.Room) : Kept s s' where
  counted := (e.inv inv room).counted
  released := e.releases inv
  globals g o h := (e.inv inv room).dead o (number_of_global h)
  locals l c h := by
    obtain ⟨copy, there, -⟩ := (e.inv inv room).copy h
    have pos := copiesOf_pos there
    exact ⟨copy, there, (e.inv inv room).dead _ (Nat.lt_of_lt_of_le pos (copiesOf_le_number s' _))⟩

/-! ## The effect of each call -/

/-- A call that does not touch the `LocalPointer`s. -/
theorem Effect.of_globals (inv : Inv s)
    (objects : s'.objects = ((s.release lost).acquire gained).objects)
    (globals : Exchange lost gained (holders s.globals) (holders s'.globals))
    (locals : s'.locals = s.locals) (copies : s'.copies = s.copies)
    (both : ∀ o, lost = some o → gained = some o → 2 ≤ s.number o) (alive : s.Exists gained) :
    Effect lost gained s s' where
  objects := objects
  number := by
    have same : s'.copiesOf = s.copiesOf := by
      funext o
      simp only [copiesOf, copies]
    have sum := (Exchange.refl lost s.copiesOf).add globals
    intro o
    have := sum o
    simpa only [State.number, same] using this
  both := both
  alive := alive
  linked c := by
    have := inv.linked c
    simpa only [countAt, copyAt, locals, copies] using this

/-- A call that does not touch the `GlobalPointer`s. -/
theorem Effect.of_locals {p q : Option ℕ} (inv : Inv s)
    (objects : s'.objects = (s.acquire gained).objects) (globals : s'.globals = s.globals)
    (copies : Exchange none gained s.copiesOf s'.copiesOf)
    (counts : Exchange p q s.countAt s'.countAt)
    (locals : Exchange p q (holders s.locals) (holders s'.locals)) (alive : s.Exists gained) :
    Effect none gained s s' where
  objects := objects
  number := by
    have sum := copies.add (Exchange.refl gained (holders s.globals))
    intro o
    have := sum o
    simpa only [State.number, globals] using this
  both _ h := nomatch h
  alive := alive
  linked := locals.unique counts inv.linked

omit [DecidableEq ι] in
theorem exists_none (s : State ι) : s.Exists none := fun _ h => nomatch h

theorem Inv.exists_global (inv : Inv s) (g : ℕ) : s.Exists (s.globalPointer g) :=
  fun o h => inv.dead o (number_of_global h)

theorem Inv.exists_pointee (inv : Inv s) (l : ℕ) : s.Exists (s.pointee l) := fun o h =>
  inv.dead o (Nat.lt_of_lt_of_le (inv.number_of_pointee h) (copiesOf_le_number s o))

/-- Nothing is lost by both. -/
theorem not_both_none (o : ι) (_ : lost = some o) (h : none = some o) : 2 ≤ s.number o := nomatch h

theorem pushGlobal_effect (inv : Inv s) {p : Option ι} (alive : s.Exists p) :
    Effect none p s ((s.pushGlobal p).acquire p) :=
  Effect.of_globals inv (acquire_objects _ p rfl)
    (by simpa [pushGlobal] using exchange_push s.globals p)
    (by simp [pushGlobal]) (by simp [pushGlobal]) (fun _ h => nomatch h) alive

theorem globalMove_effect (inv : Inv s) {other : ℕ} (h : Alive s.globals other) :
    Effect none none s (s.globalMove other) :=
  Effect.of_globals inv rfl (exchange_take h) rfl rfl not_both_none (exists_none s)

/-- Release, store, acquire: what the assignments have in common. -/
theorem setGlobal_effect (inv : Inv s) {this : ℕ} {p : Option ι} (h : Alive s.globals this)
    (both : ∀ o, s.globalPointer this = some o → p = some o → 2 ≤ s.number o)
    (alive : s.Exists p) :
    Effect (s.globalPointer this) p s
      (((s.release (s.globalPointer this)).setGlobal this p).acquire p) :=
  Effect.of_globals inv (acquire_objects _ p rfl)
    (by simpa [setGlobal, globalPointer] using exchange_set p h)
    (by simp [setGlobal]) (by simp [setGlobal]) both alive

theorem globalAssignMove_effect (inv : Inv s) {this other : ℕ} (h : Alive s.globals this)
    (h' : Alive s.globals other) (ne : s.globalPointer this ≠ s.globalPointer other) :
    Effect (s.globalPointer this) none s (s.globalAssignMove this other) := by
  rw [globalAssignMove, if_neg ne]
  exact Effect.of_globals inv rfl (by simpa [setGlobal, globalPointer] using exchange_move h h')
    (by simp [setGlobal]) (by simp [setGlobal]) not_both_none (exists_none s)

/-- A variable with a null pointer is given a null pointer. -/
theorem setGlobal_none_effect (inv : Inv s) {g : ℕ} (h : Alive s.globals g)
    (null : s.globalPointer g = none) : Effect none none s (s.setGlobal g none) := by
  have globals := exchange_set none h
  rw [show valueAt s.globals g = none from null] at globals
  exact Effect.of_globals inv rfl globals rfl rfl not_both_none (exists_none s)

theorem globalDestroy_effect (inv : Inv s) {g : ℕ} (h : Alive s.globals g) :
    Effect (s.globalPointer g) none s (s.globalDestroy g) :=
  Effect.of_globals inv rfl (by simpa [globalDestroy, globalPointer] using exchange_destroy h)
    (by simp [globalDestroy]) (by simp [globalDestroy]) not_both_none (exists_none s)

/-- A call that changes neither an object nor a `GlobalPointer` nor what a `LocalCopy` is for. -/
theorem Effect.of_copies {p q : Option ℕ} (inv : Inv s) (objects : s'.objects = s.objects)
    (globals : s'.globals = s.globals) (copies : s'.copiesOf = s.copiesOf)
    (counts : Exchange p q s.countAt s'.countAt)
    (locals : Exchange p q (holders s.locals) (holders s'.locals)) :
    Effect none none s s' :=
  Effect.of_locals inv objects globals (Exchange.of_eq copies) counts locals (exists_none s)

theorem pushLocal_none_effect (inv : Inv s) : Effect none none s (s.pushLocal none) :=
  Effect.of_copies inv rfl rfl rfl (Exchange.refl none _) (exchange_push s.locals none)

/-- A pointer in a `LocalPointer` is counted, and its count can grow. -/
theorem Inv.held (inv : Inv s) (room : s.Room) {l c : ℕ} (h : s.localPointer l = some c) :
    0 < s.countAt c ∧ s.countAt c + 1 < 2 ^ 64 := by
  rw [inv.linked]
  exact ⟨holders_pos (get_of_valueAt h), room.holders c⟩

theorem Inv.shared (inv : Inv s) {p : Option ℕ} (h : s.Shared p) (c : ℕ) (hc : p = some c) :
    2 ≤ s.countAt c := by
  rw [inv.linked]
  exact h c hc

theorem localCopy_effect (inv : Inv s) (room : s.Room) (l : ℕ) :
    Effect none none s (s.localCopy l) := by
  have counts : Exchange none (s.localPointer l) s.countAt (s.localCopy l).countAt :=
    countAt_acquireCopy (s := s.pushLocal (s.localPointer l)) fun c h => inv.held room h
  exact Effect.of_copies inv (by simp [State.localCopy, pushLocal])
    (by simp [State.localCopy, pushLocal])
    (copiesOf_acquireCopy _ _) counts (by
      simpa [State.localCopy, pushLocal] using exchange_push s.locals (s.localPointer l))

theorem localMove_effect (inv : Inv s) {l : ℕ} (h : Alive s.locals l) :
    Effect none none s (s.localMove l) :=
  Effect.of_copies inv rfl rfl rfl (Exchange.refl none _) (exchange_take h)

/-- A new `LocalCopy`, with a reference to its object that is acquired. -/
theorem localFromRaw_effect (inv : Inv s) {p : Option ι} (alive : s.Exists p) :
    Effect none p s (s.localFromRaw p) := by
  cases p with
  | none => exact pushLocal_none_effect inv
  | some o =>
      exact Effect.of_locals inv (acquire_objects _ (some o) rfl) rfl (copiesOf_append s o)
        (countAt_append s o) (exchange_push s.locals (some s.copies.length)) alive

theorem localFromGlobalMove_effect (inv : Inv s) {g : ℕ} (h : Alive s.globals g) :
    Effect none none s (s.localFromGlobalMove g) := by
  cases e : s.globalPointer g with
  | none =>
      simp only [localFromGlobalMove, e]
      exact pushLocal_none_effect inv
  | some o =>
      have lose := exchange_set none h
      rw [show valueAt s.globals g = some o from e] at lose
      simp only [localFromGlobalMove, e]
      exact {
        objects := rfl
        number := (copiesOf_append s o).add lose
        both := not_both_none
        alive := exists_none s
        linked := (exchange_push s.locals (some s.copies.length)).unique (countAt_append s o)
          inv.linked }

/-- The old `LocalCopy` is released, and the new one is stored. -/
theorem localAssign_effect (inv : Inv s) (room : s.Room) {this other : ℕ}
    (h : Alive s.locals this) (ne : s.localPointer this ≠ s.localPointer other)
    (shared : s.Shared (s.localPointer this)) : Effect none none s (s.localAssign this other) := by
  have two := inv.shared shared
  have release := countAt_releaseCopy two
  have held : ∀ c, s.localPointer other = some c →
      0 < (s.releaseCopy (s.localPointer this)).countAt c ∧
        (s.releaseCopy (s.localPointer this)).countAt c + 1 < 2 ^ 64 := by
    intro c hc
    have same := release c
    rw [if_neg (fun old => ne (old.trans hc.symm)), if_neg (by simp)] at same
    have := inv.held room hc
    omega
  rw [localAssign, if_neg ne]
  exact Effect.of_copies inv (by simp [setLocal]) (by simp [setLocal])
    ((copiesOf_acquireCopy _ _).trans (copiesOf_releaseCopy two))
    (release.trans (countAt_acquireCopy
      (s := (s.releaseCopy (s.localPointer this)).setLocal this (s.localPointer other)) held))
    (by simpa [setLocal, localPointer] using exchange_set (s.localPointer other) h)

theorem localAssignMove_effect (inv : Inv s) {this other : ℕ} (h : Alive s.locals this)
    (h' : Alive s.locals other) (shared : s.Shared (s.localPointer this)) :
    Effect none none s (s.localAssignMove this other) := by
  have two := inv.shared shared
  exact Effect.of_copies inv (by simp [localAssignMove, setLocal])
    (by simp [localAssignMove, setLocal]) (copiesOf_releaseCopy two) (countAt_releaseCopy two)
    (by simpa [localAssignMove, setLocal, localPointer] using exchange_move h h')

theorem localAssignRaw_effect (inv : Inv s) {this : ℕ} {o : ι} (h : Alive s.locals this)
    (shared : s.Shared (s.localPointer this)) (alive : s.Exists (some o)) :
    Effect none (some o) s (s.localAssignRaw this (some o)) := by
  have two := inv.shared shared
  have copies := copiesOf_append (s.releaseCopy (s.localPointer this)) o
  have counts := countAt_append (s.releaseCopy (s.localPointer this)) o
  rw [copiesOf_releaseCopy two] at copies
  rw [releaseCopy_length] at counts
  exact Effect.of_locals inv
    (by simpa [localAssignRaw, newLocalCopy, setLocal] using acquire_objects _ (some o) (by simp))
    (by simp [localAssignRaw, newLocalCopy, setLocal])
    copies ((countAt_releaseCopy two).trans counts)
    (by simpa [localAssignRaw, newLocalCopy, setLocal, localPointer] using
      exchange_set (some s.copies.length) h) alive

theorem localDestroy_effect (inv : Inv s) {l : ℕ} (h : Alive s.locals l)
    (shared : s.Shared (s.localPointer l)) : Effect none none s (s.localDestroy l) := by
  have two := inv.shared shared
  exact Effect.of_copies inv (by simp [localDestroy]) (by simp [localDestroy])
    (copiesOf_releaseCopy two) (countAt_releaseCopy two)
    (by simpa [localDestroy, localPointer] using exchange_destroy h)

/-- A UniquePointer takes no part in the counts. -/
theorem Effect.setUnique (e : Effect lost gained s s') (u : ℕ) (p : Option ι) :
    Effect lost gained s (s'.setUnique u p) :=
  ⟨e.objects, e.number, e.both, e.alive, e.linked⟩

/-- The effect of a call that is made with care. -/
theorem Inv.effect (inv : Inv s) {a : Call ι} (enabled : s.Enabled a) (careful : s.Careful a) :
    ∃ lost gained, Effect lost gained s (s.perform a) := by
  obtain ⟨room, care⟩ := careful
  have nothing : Effect none none s s :=
    Effect.of_copies inv rfl rfl rfl (Exchange.refl none _) (Exchange.refl none _)
  cases a with
  | uniqueNew ptr => exact ⟨_, _, nothing.objects, nothing.number, nothing.both, nothing.alive,
      nothing.linked⟩
  | globalNew => exact ⟨_, _, pushGlobal_effect inv (exists_none s)⟩
  | globalCopy other => exact ⟨_, _, pushGlobal_effect inv (inv.exists_global other)⟩
  | globalMove other => exact ⟨_, _, globalMove_effect inv enabled⟩
  | globalFromLocal ptr => exact ⟨_, _, pushGlobal_effect inv (inv.exists_pointee ptr)⟩
  | globalAssign this other =>
      by_cases same : s.globalPointer this = s.globalPointer other
      · exact ⟨_, _, by simpa only [perform, State.globalAssign, if_pos same] using nothing⟩
      · refine ⟨s.globalPointer this, s.globalPointer other, ?_⟩
        simp only [perform, State.globalAssign, if_neg same]
        exact setGlobal_effect inv enabled.1 (fun o h h' => absurd (h.trans h'.symm) same)
          (inv.exists_global other)
  | globalAssignMove this other =>
      by_cases same : s.globalPointer this = s.globalPointer other
      · refine ⟨none, none, ?_⟩
        simp only [perform, State.globalAssignMove, if_pos same]
        exact setGlobal_none_effect inv enabled.2 (same.symm.trans (care same))
      · exact ⟨_, _, globalAssignMove_effect inv enabled.1 enabled.2 same⟩
  | globalAssignLocal this other =>
      cases e : s.localPointer other with
      | none =>
          refine ⟨none, none, ?_⟩
          simpa only [perform, State.globalAssignLocal, e, care e, release] using nothing
      | some c =>
          refine ⟨s.globalPointer this, s.pointee other, ?_⟩
          simp only [perform, State.globalAssignLocal, e]
          apply setGlobal_effect inv enabled.1 ?_ (inv.exists_pointee other)
          intro o h h'
          have := holders_pos (get_of_valueAt h)
          have := inv.number_of_pointee h'
          unfold number
          omega
  | globalDestroy this => exact ⟨_, _, globalDestroy_effect inv enabled⟩
  | localNew => exact ⟨_, _, pushLocal_none_effect inv⟩
  | localCopy ptr => exact ⟨_, _, localCopy_effect inv room ptr⟩
  | localMove other => exact ⟨_, _, localMove_effect inv enabled⟩
  | localFromUnique other =>
      exact ⟨_, _, (localFromRaw_effect inv enabled.2).setUnique other none⟩
  | localFromGlobal other => exact ⟨_, _, localFromRaw_effect inv (inv.exists_global other)⟩
  | localFromGlobalMove other => exact ⟨_, _, localFromGlobalMove_effect inv enabled⟩
  | localFromRaw ptr => exact ⟨_, _, localFromRaw_effect inv enabled⟩
  | localAssign this other =>
      by_cases same : s.localPointer this = s.localPointer other
      · exact ⟨_, _, by simpa only [perform, State.localAssign, if_pos same] using nothing⟩
      · exact ⟨_, _, localAssign_effect inv room enabled.1 same (care same)⟩
  | localAssignMove this other =>
      exact ⟨_, _, localAssignMove_effect inv enabled.1 enabled.2 care⟩
  | localAssignUnique this other =>
      cases e : s.uniquePointer other with
      | none =>
          refine ⟨none, none, ?_⟩
          simp only [perform, State.localAssignUnique, e]
          have two := inv.shared care
          exact Effect.of_copies inv (by simp [setLocal]) (by simp [setLocal])
            (copiesOf_releaseCopy two) (countAt_releaseCopy two)
            (by simpa [setLocal, localPointer] using exchange_set none enabled.1)
      | some o =>
          refine ⟨none, some o, ?_⟩
          simp only [perform, State.localAssignUnique, e]
          exact (localAssignRaw_effect inv enabled.1 care (e ▸ enabled.2.2)).setUnique other none
  | localAssignGlobal this other =>
      cases e : s.globalPointer other with
      | none =>
          refine ⟨none, none, ?_⟩
          simpa only [perform, State.localAssignGlobal, State.localAssignRaw, e, care.2 e,
            releaseCopy] using nothing
      | some o =>
          refine ⟨none, some o, ?_⟩
          simp only [perform, State.localAssignGlobal, e]
          exact localAssignRaw_effect inv enabled.1 care.1 (e ▸ inv.exists_global other)
  | localAssignRaw this other =>
      cases other with
      | none =>
          refine ⟨none, none, ?_⟩
          simpa only [perform, State.localAssignRaw, care.2 rfl, releaseCopy] using nothing
      | some o => exact ⟨_, _, localAssignRaw_effect inv enabled.1 care.1 enabled.2⟩
  | localDestroy this => exact ⟨_, _, localDestroy_effect inv enabled care⟩

end Numbers

/-! ## Every run -/

section Runs

variable [DecidableEq ι] {s : State ι}

theorem Reachable.inv (h : Reachable Careful s) : Inv s := by
  induction h with
  | start => exact inv_initial
  | step a _ enabled careful ih =>
      obtain ⟨lost, gained, effect⟩ := ih.effect enabled careful
      exact effect.inv ih careful.1

/-- In a run of calls that are made with care, each call owes nothing. -/
theorem Reachable.references_kept (h : Reachable Careful s) {a : Call ι} (enabled : s.Enabled a)
    (careful : s.Careful a) : Kept s (s.perform a) := by
  obtain ⟨lost, gained, effect⟩ := h.inv.effect enabled careful
  exact effect.kept h.inv careful.1

/-- Short lists leave room. -/
theorem room_of_length (objects : s.copies.length + s.globals.length + 1 < 2 ^ 64)
    (locals : s.locals.length + 1 < 2 ^ 64) : s.Room where
  number o := by
    have := List.countP_le_length (p := fun c => match c with
      | none => false
      | some (copy : LocalCopy ι) => decide (copy.pointer = o)) (l := s.copies)
    have := List.count_le_length (a := Slot.pointer (some o)) (l := s.globals)
    show List.countP _ _ + List.count _ _ + 1 < _
    omega
  holders c := by
    have := List.count_le_length (a := Slot.pointer (some c)) (l := s.locals)
    show List.count _ _ + 1 < _
    omega

/-- An object, a `LocalPointer` to it, and a copy of that. -/
def pair : State ℕ := (initial.perform (.localFromRaw (some 0))).perform (.localCopy 0)

theorem pair_reachable : Reachable Careful pair := by
  apply Reachable.step (.localCopy 0)
  · apply Reachable.step (.localFromRaw (some 0)) Reachable.start
    · exact fun _ _ => rfl
    · exact ⟨room_of_length (by decide) (by decide), trivial⟩
  · exact ⟨_, rfl⟩
  · exact ⟨room_of_length (by decide) (by decide), trivial⟩

/-- The copy is destroyed. -/
theorem references_kept_pair : Kept pair (pair.perform (.localDestroy 1)) :=
  pair_reachable.references_kept ⟨_, rfl⟩
    ⟨room_of_length (by decide) (by decide), by
      intro c h
      cases h
      decide⟩

/-- An object and the one `LocalPointer` to it, which is then destroyed: the object keeps a
reference. -/
theorem not_always_kept : ¬ ∀ (s : State ℕ) (a : Call ℕ), Reachable (fun _ _ => True) s →
    s.Enabled a → Kept s (s.perform a) := by
  intro h
  have kept := h (initial.perform (.localFromRaw (some 0))) (.localDestroy 0)
    (.step _ .start (fun _ _ => rfl) trivial) ⟨_, rfl⟩
  exact absurd (kept.counted 0) (by decide)

end Runs

end State

end Beelzebub.SmartPointers
