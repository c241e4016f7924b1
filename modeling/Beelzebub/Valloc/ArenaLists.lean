import Beelzebub.Lib.Linked
import Beelzebub.Valloc.Heap
import Mathlib.Logic.Relation

/-!
# The lists of arenas

An arena is in the list of the thread that owns it, or in the one that starts at `GList` if no
thread does.  Both kinds of lists go through the same two fields of its header, and an arena
changes from one to the other when it is retired or promoted.

Below, the list of `some t` is the one of the thread `t`, and that of `none` is the global one.
All the calls take an arena out of a list, put one at the head of a list, or do both.
-/

namespace Beelzebub.Valloc

/-- The platform gives no memory at the null address, and none that it has given already. -/
def Platform.Fresh {θ : Type} (platform : Platform θ) : Prop :=
  ∀ h a, platform.fresh h = some a → a ≠ 0 ∧ a ∉ h.live

namespace Heap

variable {θ : Type}

def nextArena (h : Heap θ) (a : ℕ) : Option ℕ := Linked.link 0 (h.arenas a).next

def prevArena (h : Heap θ) (a : ℕ) : Option ℕ := Linked.link 0 (h.arenas a).prev

/-- `TD.FirstArena` of the thread, or `GList`. -/
def head (h : Heap θ) : Option θ → ℕ
  | none => h.gList
  | some t => h.firstArena t

/-- The lists, by their members in order. -/
structure Chained (h : Heap θ) (lists : Option θ → List ℕ) : Prop where
  links : ∀ o, Linked.Seg h.nextArena h.prevArena none (lists o) none
  first : ∀ o, Linked.link 0 (h.head o) = (lists o).head?
  nodup : ∀ o, (lists o).Nodup
  disjoint : ∀ o p a, a ∈ lists o → a ∈ lists p → o = p
  null : ∀ o, 0 ∉ lists o

/-- The lists have the live arenas, each with its owner. -/
structure InLists (h : Heap θ) (lists : Option θ → List ℕ) : Prop extends Chained h lists where
  mem : ∀ o a, a ∈ lists o ↔ a ∈ h.live ∧ (h.arenas a).owner = o
  once : h.live.Nodup

/-! ## Writes to the headers -/

section Writes

variable {h : Heap θ} {a b v : ℕ} {owner : Option θ}

/-- A write leaves what it does not change, in all the headers. -/
theorem modifyArena_same {γ : Type} {f : Arena θ → Arena θ} (g : Arena θ → γ)
    (hf : ∀ A, g (f A) = g A) : g ((h.modifyArena a f).arenas b) = g (h.arenas b) := by
  simp only [modifyArena, Function.update_apply]
  split
  · next hb => rw [hf, hb]
  · rfl

theorem modifyArena_apply {γ : Type} {f : Arena θ → Arena θ} {x : γ} (g : Arena θ → γ)
    (hf : ∀ A, g (f A) = x) :
    g ((h.modifyArena a f).arenas b) = if b = a then x else g (h.arenas b) := by
  simp only [modifyArena, Function.update_apply]
  split
  · exact hf _
  · rfl

@[simp] theorem nextArena_setArenaNext :
    (h.setArenaNext a v).nextArena b = if b = a then Linked.link 0 v else h.nextArena b :=
  modifyArena_apply (fun A => Linked.link 0 A.next) fun _ => rfl

@[simp] theorem prevArena_setArenaNext : (h.setArenaNext a v).prevArena b = h.prevArena b :=
  modifyArena_same (fun A => Linked.link 0 A.prev) fun _ => rfl

@[simp] theorem nextArena_setArenaPrev : (h.setArenaPrev a v).nextArena b = h.nextArena b :=
  modifyArena_same (fun A => Linked.link 0 A.next) fun _ => rfl

@[simp] theorem prevArena_setArenaPrev :
    (h.setArenaPrev a v).prevArena b = if b = a then Linked.link 0 v else h.prevArena b :=
  modifyArena_apply (fun A => Linked.link 0 A.prev) fun _ => rfl

@[simp] theorem nextArena_setOwner : (h.setOwner a owner).nextArena b = h.nextArena b :=
  modifyArena_same (fun A => Linked.link 0 A.next) fun _ => rfl

@[simp] theorem prevArena_setOwner : (h.setOwner a owner).prevArena b = h.prevArena b :=
  modifyArena_same (fun A => Linked.link 0 A.prev) fun _ => rfl

@[simp] theorem owner_setArenaNext :
    ((h.setArenaNext a v).arenas b).owner = (h.arenas b).owner :=
  modifyArena_same Arena.owner fun _ => rfl

@[simp] theorem owner_setArenaPrev :
    ((h.setArenaPrev a v).arenas b).owner = (h.arenas b).owner :=
  modifyArena_same Arena.owner fun _ => rfl

@[simp] theorem owner_setOwner :
    ((h.setOwner a owner).arenas b).owner = if b = a then owner else (h.arenas b).owner :=
  modifyArena_apply Arena.owner fun _ => rfl

@[simp] theorem head_setArenaNext : (h.setArenaNext a v).head = h.head := rfl

@[simp] theorem head_setArenaPrev : (h.setArenaPrev a v).head = h.head := rfl

@[simp] theorem head_setOwner : (h.setOwner a owner).head = h.head := rfl

@[simp] theorem live_setArenaNext : (h.setArenaNext a v).live = h.live := rfl

@[simp] theorem live_setArenaPrev : (h.setArenaPrev a v).live = h.live := rfl

@[simp] theorem live_setOwner : (h.setOwner a owner).live = h.live := rfl

/-! A neighbour's header is only written if there is a neighbour. -/

variable {n : ℕ}

theorem nextArena_linkNext :
    (if n ≠ 0 then h.setArenaNext n v else h).nextArena b =
      if Linked.link 0 n = some b then Linked.link 0 v else h.nextArena b := by
  by_cases h0 : n = 0
  · simp [h0]
  · simp [h0, Linked.link_of_ne h0, eq_comm]

theorem prevArena_linkNext :
    (if n ≠ 0 then h.setArenaNext n v else h).prevArena b = h.prevArena b := by
  split
  · exact prevArena_setArenaNext
  · rfl

theorem prevArena_linkPrev :
    (if n ≠ 0 then h.setArenaPrev n v else h).prevArena b =
      if Linked.link 0 n = some b then Linked.link 0 v else h.prevArena b := by
  by_cases h0 : n = 0
  · simp [h0]
  · simp [h0, Linked.link_of_ne h0, eq_comm]

theorem nextArena_linkPrev :
    (if n ≠ 0 then h.setArenaPrev n v else h).nextArena b = h.nextArena b := by
  split
  · exact nextArena_setArenaPrev
  · rfl

theorem unlinkArena_next :
    (h.unlinkArena a).nextArena b =
      if h.prevArena a = some b then h.nextArena a else h.nextArena b := by
  rw [unlinkArena, nextArena_linkPrev, nextArena_linkNext]
  rfl

theorem unlinkArena_prev (hself : h.prevArena a ≠ some a) :
    (h.unlinkArena a).prevArena b =
      if h.nextArena a = some b then h.prevArena a else h.prevArena b := by
  rw [unlinkArena, prevArena_linkPrev, prevArena_linkNext]
  show (if nextArena _ a = some b then prevArena _ a else _) = _
  rw [nextArena_linkNext, prevArena_linkNext]
  show (if (if h.prevArena a = some a then _ else _) = some b then _ else _) = _
  rw [if_neg hself]

theorem unlinkArena_head : (h.unlinkArena a).head = h.head := by
  rw [unlinkArena]
  split
  · split
    · rfl
    · rfl
  · split
    · rfl
    · rfl

theorem unlinkArena_owner : ((h.unlinkArena a).arenas b).owner = (h.arenas b).owner := by
  rw [unlinkArena]
  split
  · split
    · simp
    · simp
  · split
    · simp
    · simp

theorem unlinkArena_live : (h.unlinkArena a).live = h.live := by
  rw [unlinkArena]
  split
  · split
    · rfl
    · rfl
  · split
    · rfl
    · rfl

end Writes

section

variable [DecidableEq θ]

def setHead : Option θ → ℕ → Heap θ → Heap θ
  | none, a, h => { h with gList := a }
  | some t, a, h => h.setFirstArena t a

/-- An arena becomes the head of a list. -/
def pushArena (o : Option θ) (a : ℕ) (h : Heap θ) : Heap θ :=
  let h := h.setArenaNext a (h.head o)
  let h := if (h.arenas a).next ≠ 0 then h.setArenaPrev (h.arenas a).next a else h
  h.setHead o a

/-- An arena is taken out of a list. -/
def takeArena (o : Option θ) (a : ℕ) (h : Heap θ) : Heap θ :=
  if h.head o = a then
    let h := h.setHead o (h.arenas a).next
    if h.head o ≠ 0 then h.setArenaPrev (h.head o) 0 else h
  else h.unlinkArena a

variable {h : Heap θ} {lists : Option θ → List ℕ} {o : Option θ} {t : θ} {a b : ℕ}

@[simp] theorem setHead_arenas : (h.setHead o a).arenas = h.arenas := by
  cases o with
  | none => rfl
  | some t => rfl

@[simp] theorem setHead_live : (h.setHead o a).live = h.live := by
  cases o with
  | none => rfl
  | some t => rfl

@[simp] theorem head_setHead : (h.setHead o a).head = Function.update h.head o a := by
  funext p
  cases o with
  | none =>
      cases p with
      | none => rfl
      | some t => rfl
  | some t =>
      cases p with
      | none => rfl
      | some u =>
          show Function.update h.firstArena t a u = _
          simp [Function.update_apply, head]

theorem addToMine_eq : h.addToMine t a = h.pushArena (some t) a := rfl

theorem removeFromMine_eq : h.removeFromMine t a = h.takeArena (some t) a := rfl

theorem promoteArena_eq : h.promoteArena t a = (h.setOwner a (some t)).takeArena none a := rfl

omit [DecidableEq θ] in
theorem setArenaNext_next (v : ℕ) : ((h.setArenaNext a v).arenas a).next = v :=
  (modifyArena_apply Arena.next fun _ => rfl).trans (if_pos rfl)

theorem pushArena_eq :
    h.pushArena o a =
      (if h.head o ≠ 0 then (h.setArenaNext a (h.head o)).setArenaPrev (h.head o) a
        else h.setArenaNext a (h.head o)).setHead o a := by
  simp only [pushArena, setArenaNext_next]

theorem retireArena_eq :
    h.retireArena t a =
      (((h.takeArena (some t) a).setArenaPrev a 0).setOwner a none).pushArena none a := by
  generalize hk : ((h.takeArena (some t) a).setArenaPrev a 0).setOwner a none = k
  have hretire : h.retireArena t a =
      (let h := k.setArenaNext a k.gList
       let h := if (h.arenas a).next ≠ 0 then h.setArenaPrev k.gList a else h
       { h with gList := a }) := by
    rw [← hk]
    rfl
  rw [hretire]
  dsimp only
  rw [setArenaNext_next, pushArena_eq]
  rfl

/-! ## Putting an arena into a list -/

@[simp] theorem nextArena_setHead : (h.setHead o a).nextArena = h.nextArena := by
  funext b
  rw [nextArena, nextArena, setHead_arenas]

@[simp] theorem prevArena_setHead : (h.setHead o a).prevArena = h.prevArena := by
  funext b
  rw [prevArena, prevArena, setHead_arenas]

theorem pushArena_next :
    (h.pushArena o a).nextArena b =
      if b = a then Linked.link 0 (h.head o) else h.nextArena b := by
  rw [pushArena_eq, nextArena_setHead, nextArena_linkPrev, nextArena_setArenaNext]

theorem pushArena_prev :
    (h.pushArena o a).prevArena b =
      if Linked.link 0 (h.head o) = some b then Linked.link 0 a else h.prevArena b := by
  rw [pushArena_eq, prevArena_setHead, prevArena_linkPrev, prevArena_setArenaNext]

theorem pushArena_head : (h.pushArena o a).head = Function.update h.head o a := by
  rw [pushArena_eq]
  split
  · simp
  · simp

theorem pushArena_owner : ((h.pushArena o a).arenas b).owner = (h.arenas b).owner := by
  rw [pushArena_eq]
  split
  · simp
  · simp

theorem pushArena_live : (h.pushArena o a).live = h.live := by
  rw [pushArena_eq]
  split
  · simp
  · simp

omit [DecidableEq θ] in
theorem mem_push {p : Option θ} [DecidableEq (Option θ)] :
    b ∈ Function.update lists o (a :: lists o) p ↔ (b = a ∧ p = o) ∨ b ∈ lists p := by
  by_cases hp : p = o
  · subst hp
    simp
  · simp [hp]

/-- An arena that is in no list becomes the head of one. -/
theorem Chained.push (hl : h.Chained lists) (ha : a ≠ 0) (hout : ∀ p, a ∉ lists p)
    (hprev : h.prevArena a = none) :
    (h.pushArena o a).Chained (Function.update lists o (a :: lists o)) where
  links := by
    intro p
    by_cases hp : p = o
    · subst hp
      rw [Function.update_self, Linked.seg_cons, pushArena_next, if_pos rfl, pushArena_prev,
        hl.first, Option.or_none]
      refine ⟨?_, rfl, ?_⟩
      · rw [if_neg, hprev]
        intro hhead
        exact hout p (List.mem_of_mem_head? hhead)
      · refine Linked.seg_relink_head (hl.links p) (hl.nodup p) ?_ ?_ ?_
        · intro b hb
          rw [pushArena_next, if_neg (ne_of_mem_of_not_mem hb (hout p))]
        · intro b _ hne
          rw [pushArena_prev, hl.first, if_neg hne]
        · intro b hb
          rw [pushArena_prev, hl.first, if_pos (Option.mem_def.mp hb), Linked.link_of_ne ha]
    · rw [Function.update_of_ne hp]
      refine (Linked.seg_congr ?_ ?_).mpr (hl.links p)
      · intro b hb
        rw [pushArena_next, if_neg (ne_of_mem_of_not_mem hb (hout p))]
      · intro b hb
        rw [pushArena_prev, hl.first, if_neg]
        intro hhead
        exact hp (hl.disjoint p o b hb (List.mem_of_mem_head? hhead))
  first := by
    intro p
    rw [pushArena_head]
    by_cases hp : p = o
    · subst hp
      rw [Function.update_self, Function.update_self, Linked.link_of_ne ha]
      rfl
    · rw [Function.update_of_ne hp, Function.update_of_ne hp, hl.first]
  nodup := by
    intro p
    by_cases hp : p = o
    · subst hp
      rw [Function.update_self]
      exact List.nodup_cons.mpr ⟨hout p, hl.nodup p⟩
    · rw [Function.update_of_ne hp]
      exact hl.nodup p
  disjoint := by
    intro p q b hb hb'
    rcases mem_push.mp hb with ⟨rfl, rfl⟩ | hbp
    · rcases mem_push.mp hb' with ⟨-, rfl⟩ | hbq
      · rfl
      · exact absurd hbq (hout q)
    · rcases mem_push.mp hb' with ⟨rfl, rfl⟩ | hbq
      · exact absurd hbp (hout p)
      · exact hl.disjoint p q b hbp hbq
  null := by
    intro p h0
    rcases mem_push.mp h0 with ⟨h0, -⟩ | h0
    · exact ha h0.symm
    · exact hl.null p h0

/-! ## Taking an arena out of a list -/

/-! The head of a list has no arena before it, so taking it out is no special case for the
links. -/

theorem takeArena_next (hhead : h.head o = a → h.prevArena a = none) :
    (h.takeArena o a).nextArena b =
      if h.prevArena a = some b then h.nextArena a else h.nextArena b := by
  by_cases ho : h.head o = a
  · rw [takeArena, if_pos ho, nextArena_linkPrev, nextArena_setHead, hhead ho]
    rfl
  · rw [takeArena, if_neg ho, unlinkArena_next]

theorem takeArena_prev (hhead : h.head o = a → h.prevArena a = none)
    (hself : h.prevArena a ≠ some a) :
    (h.takeArena o a).prevArena b =
      if h.nextArena a = some b then h.prevArena a else h.prevArena b := by
  by_cases ho : h.head o = a
  · rw [takeArena, if_pos ho, prevArena_linkPrev, prevArena_setHead, head_setHead,
      Function.update_self, hhead ho]
    rfl
  · rw [takeArena, if_neg ho, unlinkArena_prev hself]

theorem takeArena_head :
    (h.takeArena o a).head =
      if h.head o = a then Function.update h.head o (h.arenas a).next else h.head := by
  rw [takeArena]
  split
  · dsimp only
    split
    · rw [head_setArenaPrev, head_setHead]
    · rw [head_setHead]
  · exact unlinkArena_head

theorem takeArena_owner : ((h.takeArena o a).arenas b).owner = (h.arenas b).owner := by
  rw [takeArena]
  split
  · dsimp only
    split
    · rw [owner_setArenaPrev, setHead_arenas]
    · rw [setHead_arenas]
  · exact unlinkArena_owner

theorem takeArena_live : (h.takeArena o a).live = h.live := by
  rw [takeArena]
  split
  · dsimp only
    split
    · rw [live_setArenaPrev, setHead_live]
    · rw [setHead_live]
  · exact unlinkArena_live

theorem mem_take {p : Option θ} (hnd : (lists o).Nodup) (hout : ∀ p, a ∈ lists p → p = o) :
    b ∈ Function.update lists o ((lists o).erase a) p ↔ b ∈ lists p ∧ b ≠ a := by
  by_cases hp : p = o
  · subst hp
    rw [Function.update_self, hnd.mem_erase_iff, and_comm]
  · rw [Function.update_of_ne hp]
    constructor
    · intro hb
      refine ⟨hb, ?_⟩
      rintro rfl
      exact hp (hout p hb)
    · exact And.left

/-- An arena is taken out of its list, and the other lists stay. -/
theorem Chained.take (hl : h.Chained lists) (ha : a ∈ lists o) :
    (h.takeArena o a).Chained (Function.update lists o ((lists o).erase a)) := by
  obtain ⟨xs, ys, heq⟩ := List.append_of_mem ha
  have hlinks := hl.links o
  have hnd := hl.nodup o
  rw [heq] at hlinks hnd
  obtain ⟨hprev, hnext⟩ := Linked.seg_middle hlinks
  rw [Option.or_none] at hprev hnext
  have hxs : a ∉ xs := fun hx => (List.nodup_append.mp hnd).2.2 a hx a List.mem_cons_self rfl
  have hapart : ∀ b ∈ xs, b ∉ ys := fun b hx hy =>
    (List.nodup_append.mp hnd).2.2 b hx b (List.mem_cons_of_mem a hy) rfl
  have hself : h.prevArena a ≠ some a := by
    rw [hprev]
    intro hlast
    exact hxs (List.mem_of_getLast? hlast)
  have hfirst := hl.first o
  rw [heq] at hfirst
  have hempty : h.head o = a → xs = [] := by
    intro hhead
    cases xs with
    | nil => rfl
    | cons x xs =>
        obtain ⟨rfl, -⟩ := Linked.link_eq_some.mp hfirst
        rw [hhead] at hxs
        exact absurd List.mem_cons_self hxs
  have hhead : h.head o = a → h.prevArena a = none := by
    intro hhead
    rw [hprev, hempty hhead]
    rfl
  have hrest : (lists o).erase a = xs ++ ys := by
    rw [heq, List.erase_append_right _ hxs, List.erase_cons_head]
  have hout : ∀ p, a ∈ lists p → p = o := fun p hp => hl.disjoint p o a hp ha
  refine ⟨?_, ?_, ?_, ?_, ?_⟩
  · intro p
    by_cases hp : p = o
    · subst hp
      rw [Function.update_self, hrest]
      refine Linked.seg_remove hlinks hnd ?_ ?_ ?_ ?_ ?_ ?_
      · intro b _ hne
        rw [takeArena_next hhead, hprev, if_neg hne]
      · intro b hb
        rw [takeArena_next hhead, hprev, if_pos (Option.mem_def.mp hb)]
      · intro b hb
        rw [takeArena_prev hhead hself, hnext, if_neg]
        intro hys
        exact hapart b hb (List.mem_of_mem_head? hys)
      · intro b hb
        rw [takeArena_next hhead, hprev, if_neg]
        intro hlast
        exact hapart b (List.mem_of_getLast? hlast) hb
      · intro b _ hne
        rw [takeArena_prev hhead hself, hnext, if_neg hne]
      · intro b hb
        rw [takeArena_prev hhead hself, hnext, if_pos (Option.mem_def.mp hb)]
    · rw [Function.update_of_ne hp]
      refine (Linked.seg_congr ?_ ?_).mpr (hl.links p)
      · intro b hb
        rw [takeArena_next hhead, if_neg]
        intro hb'
        exact hp (hl.disjoint p o b hb ((hl.links o).mem_of_prev ha hb'))
      · intro b hb
        rw [takeArena_prev hhead hself, if_neg]
        intro hb'
        exact hp (hl.disjoint p o b hb ((hl.links o).mem_of_next ha hb'))
  · intro p
    rw [takeArena_head]
    by_cases hp : p = o
    · subst hp
      rw [Function.update_self, hrest]
      by_cases ha' : h.head p = a
      · rw [if_pos ha', Function.update_self, hempty ha']
        exact hnext
      · rw [if_neg ha', hfirst]
        cases xs with
        | nil => exact absurd (Linked.link_eq_some.mp hfirst).1 ha'
        | cons x xs => rfl
    · rw [Function.update_of_ne hp, ← hl.first p]
      split
      · rw [Function.update_of_ne hp]
      · rfl
  · intro p
    by_cases hp : p = o
    · subst hp
      rw [Function.update_self]
      exact (hl.nodup p).erase a
    · rw [Function.update_of_ne hp]
      exact hl.nodup p
  · intro p q b hb hb'
    exact hl.disjoint p q b ((mem_take (hl.nodup o) hout).mp hb).1
      ((mem_take (hl.nodup o) hout).mp hb').1
  · intro p h0
    exact hl.null p ((mem_take (hl.nodup o) hout).mp h0).1

/-! ## Headers of arenas that are in no list -/

omit [DecidableEq θ] in
/-- The lists do not depend on the headers of other arenas. -/
theorem Chained.congr {k : Heap θ} (hl : h.Chained lists) (hhead : k.head = h.head)
    (hsame : ∀ p, ∀ b ∈ lists p, k.nextArena b = h.nextArena b ∧ k.prevArena b = h.prevArena b) :
    k.Chained lists where
  links := by
    intro p
    exact (Linked.seg_congr (fun b hb => (hsame p b hb).1) fun b hb => (hsame p b hb).2).mpr
      (hl.links p)
  first := by
    intro p
    rw [hhead]
    exact hl.first p
  nodup := hl.nodup
  disjoint := hl.disjoint
  null := hl.null

/-! ## The calls -/

/-- A call about the lists.  A thread retires and deallocates arenas of its own, and promotes
what is retired, which `promote` does. -/
inductive ArenaStep (platform : Platform θ) (promote : θ → ℕ → Heap θ → Heap θ) :
    Heap θ → Heap θ → Prop where
  | allocate {h h' : Heap θ} {t : θ} {a : ℕ} (hgiven : h.allocateArena platform t = some (a, h')) :
      ArenaStep platform promote h h'
  | retire {h : Heap θ} {t : θ} {a : ℕ} (hlive : a ∈ h.live)
      (howner : (h.arenas a).owner = some t) : ArenaStep platform promote h (h.retireArena t a)
  | promote {h : Heap θ} {t : θ} {a : ℕ} (hlive : a ∈ h.live)
      (howner : (h.arenas a).owner = none) : ArenaStep platform promote h (promote t a h)
  | deallocate {h : Heap θ} {t : θ} {a : ℕ} (hlive : a ∈ h.live)
      (howner : (h.arenas a).owner = some t) : ArenaStep platform promote h (h.deallocateArena t a)

/-- Any number of calls, from a heap without arenas. -/
def ArenaRun (platform : Platform θ) (promote : θ → ℕ → Heap θ → Heap θ) (h : Heap θ) : Prop :=
  ∃ start : Heap θ, start.live = [] ∧ (∀ o, start.head o = 0) ∧
    Relation.ReflTransGen (ArenaStep platform promote) start h

/-- An arena that was in the list of `o` is in that of `p` now. -/
theorem InLists.moved {p : Option θ} {k : Heap θ} (hl : h.InLists lists) (hlive : a ∈ h.live)
    (howner : (h.arenas a).owner = o) (hk : k.live = h.live)
    (hnew : ∀ b, (k.arenas b).owner = if b = a then p else (h.arenas b).owner)
    (hc : k.Chained (Function.update (Function.update lists o ((lists o).erase a)) p
      (a :: Function.update lists o ((lists o).erase a) p))) :
    ∃ lists, k.InLists lists := by
  have hout : ∀ p, a ∈ lists p → p = o := fun p hp =>
    hl.disjoint p o a hp ((hl.mem o a).mpr ⟨hlive, howner⟩)
  refine ⟨_, hc, ?_, ?_⟩
  · intro q b
    rw [mem_push, mem_take (hl.nodup o) hout, hl.mem, hk, hnew]
    by_cases hb : b = a
    · subst hb
      simp [hlive, eq_comm]
    · simp [hb]
  · rw [hk]
    exact hl.once

/-- The arena that the platform has given is the first one of the thread. -/
theorem InLists.allocate {platform : Platform θ} {h' : Heap θ} (hplatform : platform.Fresh)
    (hl : h.InLists lists) (hgiven : h.allocateArena platform t = some (a, h')) :
    ∃ lists, h'.InLists lists := by
  rw [allocateArena] at hgiven
  cases hfresh : platform.fresh h with
  | none => rw [hfresh] at hgiven; cases hgiven
  | some addr =>
      rw [hfresh] at hgiven
      obtain ⟨rfl, rfl⟩ := Prod.mk.inj (Option.some.inj hgiven)
      obtain ⟨h0, hlive⟩ := hplatform h addr hfresh
      have hout : ∀ p, addr ∉ lists p := fun p hp => hlive ((hl.mem p addr).mp hp).1
      have hne : ∀ b, b ≠ addr → (h.newArena addr t largePageSize).arenas b = h.arenas b :=
        fun b hb => Function.update_of_ne hb _ _
      have hself : (h.newArena addr t largePageSize).prevArena addr = none := by
        simp [prevArena, newArena]
      have howner : ((h.newArena addr t largePageSize).arenas addr).owner = some t := by
        simp [newArena]
      have hchained : (h.newArena addr t largePageSize).Chained lists := by
        refine hl.congr rfl fun p b hb => ?_
        rw [nextArena, prevArena, hne b (ne_of_mem_of_not_mem hb (hout p))]
        exact ⟨rfl, rfl⟩
      refine ⟨_, hchained.push (o := some t) h0 hout hself, ?_, ?_⟩
      · intro p b
        rw [mem_push, addToMine_eq, pushArena_live, pushArena_owner, hl.mem]
        show _ ↔ b ∈ addr :: h.live ∧ _
        rw [List.mem_cons]
        by_cases hb : b = addr
        · subst hb
          simp [howner, hlive, eq_comm]
        · simp [hne b hb, hb]
      · rw [addToMine_eq, pushArena_live]
        exact List.nodup_cons.mpr ⟨hlive, hl.once⟩

/-- A retired arena is the head of the global list. -/
theorem InLists.retire (hl : h.InLists lists) (hlive : a ∈ h.live)
    (howner : (h.arenas a).owner = some t) : ∃ lists, (h.retireArena t a).InLists lists := by
  have ha : a ∈ lists (some t) := (hl.mem (some t) a).mpr ⟨hlive, howner⟩
  have hout : ∀ p, a ∉ Function.update lists (some t) ((lists (some t)).erase a) p := by
    intro p hp
    have hall : ∀ p, a ∈ lists p → p = some t := fun p hp => hl.disjoint p (some t) a hp ha
    exact ((mem_take (hl.nodup (some t)) hall).mp hp).2 rfl
  have hc := hl.take ha
  have hc' : (((h.takeArena (some t) a).setArenaPrev a 0).setOwner a none).Chained
      (Function.update lists (some t) ((lists (some t)).erase a)) := by
    refine hc.congr rfl fun p b hb => ?_
    simp [ne_of_mem_of_not_mem hb (hout p)]
  rw [retireArena_eq]
  refine hl.moved (p := none) hlive howner ?_ ?_ ?_
  · rw [pushArena_live, live_setOwner, live_setArenaPrev, takeArena_live]
  · intro b
    rw [pushArena_owner, owner_setOwner, owner_setArenaPrev, takeArena_owner]
  · refine hc'.push ?_ hout ?_
    · rintro rfl
      exact hl.null (some t) ha
    · simp

/-- A promoted arena is the first one of the thread. -/
theorem InLists.promote (hl : h.InLists lists) (hlive : a ∈ h.live)
    (howner : (h.arenas a).owner = none) : ∃ lists, (h.adoptArena t a).InLists lists := by
  have ha : a ∈ lists none := (hl.mem none a).mpr ⟨hlive, howner⟩
  have ha0 : a ≠ 0 := by
    rintro rfl
    exact hl.null none ha
  have hout : ∀ p, a ∉ Function.update lists none ((lists none).erase a) p := by
    intro p hp
    have hall : ∀ p, a ∈ lists p → p = none := fun p hp => hl.disjoint p none a hp ha
    exact ((mem_take (hl.nodup none) hall).mp hp).2 rfl
  have howned : (h.setOwner a (some t)).Chained lists :=
    hl.congr rfl fun p b hb => ⟨nextArena_setOwner, prevArena_setOwner⟩
  have hc := howned.take ha
  have hc' : (((h.setOwner a (some t)).takeArena none a).setArenaPrev a 0).Chained
      (Function.update lists none ((lists none).erase a)) := by
    refine hc.congr rfl fun p b hb => ?_
    simp [ne_of_mem_of_not_mem hb (hout p)]
  have hfirst : Linked.link 0 (((h.setOwner a (some t)).takeArena none a).head (some t)) ≠
      some a := by
    rw [hc.first]
    intro hhead
    exact hout (some t) (List.mem_of_mem_head? hhead)
  rw [adoptArena, promoteArena_eq, addToMine_eq]
  refine hl.moved (p := some t) hlive howner ?_ ?_ ?_
  · rw [live_setArenaPrev, pushArena_live, takeArena_live, live_setOwner]
  · intro b
    rw [owner_setArenaPrev, pushArena_owner, takeArena_owner, owner_setOwner]
  -- The order of the clearing and the linking makes no difference.
  · refine (hc'.push (o := some t) ha0 hout ?_).congr ?_ fun p b hb => ⟨?_, ?_⟩
    · simp
    · rw [head_setArenaPrev, pushArena_head, pushArena_head, head_setArenaPrev]
    · rw [nextArena_setArenaPrev, pushArena_next, pushArena_next, nextArena_setArenaPrev,
        head_setArenaPrev]
    · rw [prevArena_setArenaPrev, pushArena_prev, pushArena_prev, prevArena_setArenaPrev,
        head_setArenaPrev]
      by_cases hb : b = a
      · subst hb
        rw [if_pos rfl, if_neg hfirst, if_pos rfl]
      · rw [if_neg hb, if_neg hb]

/-- A deallocated arena is in no list. -/
theorem InLists.deallocate (hl : h.InLists lists) (hlive : a ∈ h.live)
    (howner : (h.arenas a).owner = some t) : ∃ lists, (h.deallocateArena t a).InLists lists := by
  have ha : a ∈ lists (some t) := (hl.mem (some t) a).mpr ⟨hlive, howner⟩
  have hout : ∀ p, a ∈ lists p → p = some t := fun p hp => hl.disjoint p (some t) a hp ha
  have hc := (hl.take ha).congr (k := h.deallocateArena t a) rfl fun p b hb => ⟨rfl, rfl⟩
  refine ⟨_, hc, ?_, ?_⟩
  · intro p b
    show _ ↔ b ∈ (h.takeArena (some t) a).live.erase a ∧
      ((h.takeArena (some t) a).arenas b).owner = p
    rw [mem_take (hl.nodup (some t)) hout, hl.mem, takeArena_live, takeArena_owner,
      hl.once.mem_erase_iff]
    constructor
    · rintro ⟨⟨hb, hp⟩, hne⟩
      exact ⟨⟨hne, hb⟩, hp⟩
    · rintro ⟨⟨hne, hb⟩, hp⟩
      exact ⟨⟨hb, hp⟩, hne⟩
  · show ((h.takeArena (some t) a).live.erase a).Nodup
    rw [takeArena_live]
    exact hl.once.erase a

theorem InLists.step {platform : Platform θ} {h' : Heap θ} (hplatform : platform.Fresh)
    (hl : h.InLists lists) (hstep : ArenaStep platform adoptArena h h') :
    ∃ lists, h'.InLists lists := by
  cases hstep with
  | allocate hgiven => exact hl.allocate hplatform hgiven
  | retire hlive howner => exact hl.retire hlive howner
  | promote hlive howner => exact hl.promote hlive howner
  | deallocate hlive howner => exact hl.deallocate hlive howner

omit [DecidableEq θ] in
theorem InLists.nil (hlive : h.live = []) (hhead : ∀ o, h.head o = 0) :
    h.InLists fun _ => [] where
  links := fun _ => trivial
  first := by
    intro o
    rw [hhead]
    rfl
  nodup := fun _ => List.nodup_nil
  disjoint := fun _ _ _ ha => absurd ha List.not_mem_nil
  null := fun _ => List.not_mem_nil
  mem := by
    intro o a
    simp [hlive]
  once := by
    rw [hlive]
    exact List.nodup_nil

/-- After any calls, each live arena is in the list of its owner and in no other, and nothing
else is in a list.  `DeallocateMemory` promotes with `adoptArena`, which clears `Prev`. -/
theorem arenaLists_sound {platform : Platform θ} (hplatform : platform.Fresh)
    (hrun : ArenaRun platform adoptArena h) : ∃ lists, h.InLists lists := by
  obtain ⟨start, hlive, hhead, hsteps⟩ := hrun
  induction hsteps with
  | refl => exact ⟨_, InLists.nil hlive hhead⟩
  | tail _ hstep ih =>
      obtain ⟨lists, hl⟩ := ih
      exact hl.step hplatform hstep

end

/-! ## Two arenas that are retired, and the first of them promoted -/

/-- A heap of the threads before any of them has memory. -/
def unused : Heap ℕ where
  link _ := 0
  prev _ := 0
  size _ := 0
  flags _ := 0
  nextFree _ := 0
  rest _ _ := 0
  arenas _ :=
    { prev := 0, next := 0, size := 0, free := 0, owner := none, lastFree := 0, lastBusy := 0,
      freeList := 0 }
  firstArena _ := 0
  gList := 0
  live := []

/-- A platform with memory for three arenas. -/
def threeArenas : Platform ℕ where
  fresh h := [0x200000, 0x400000, 0x600000].find? fun a => a ∉ h.live
  grants _ _ := false

theorem threeArenas_fresh : threeArenas.Fresh := by
  intro h a hfresh
  constructor
  · rintro rfl
    have hmem := List.mem_of_find?_eq_some hfresh
    simp at hmem
  · simpa using List.find?_some hfresh

def bothGiven : Heap ℕ :=
  let h := (unused.newArena 0x200000 0 largePageSize).addToMine 0 0x200000
  (h.newArena 0x400000 0 largePageSize).addToMine 0 0x400000

def bothRetired : Heap ℕ := (bothGiven.retireArena 0 0x200000).retireArena 0 0x400000

theorem bothRetired_run (promote : ℕ → ℕ → Heap ℕ → Heap ℕ) :
    Relation.ReflTransGen (ArenaStep threeArenas promote) unused bothRetired := by
  refine Relation.ReflTransGen.tail (Relation.ReflTransGen.tail (Relation.ReflTransGen.tail
    (Relation.ReflTransGen.single (.allocate (t := 0) (a := 0x200000) rfl))
    (.allocate (t := 0) (a := 0x400000) rfl)) (.retire ?_ ?_)) (.retire ?_ ?_)
  all_goals decide +kernel

theorem bothRetired_promoted (promote : ℕ → ℕ → Heap ℕ → Heap ℕ) :
    ArenaRun threeArenas promote (promote 1 0x200000 bothRetired) := by
  refine ⟨unused, rfl, ?_, (bothRetired_run promote).tail (.promote ?_ ?_)⟩
  · intro o
    cases o with
    | none => rfl
    | some t => rfl
  · decide +kernel
  · decide +kernel

theorem arenaLists_sound_sample :
    ∃ lists, (bothRetired.adoptArena 1 0x200000).InLists lists :=
  arenaLists_sound threeArenas_fresh (bothRetired_promoted adoptArena)

/-- `PromoteArena` and `AddToMine` alone leave the arena that was in front of it in `Prev`. -/
theorem arenaLists_sound_stale :
    ¬ ∀ h, ArenaRun threeArenas (fun t a h => (h.promoteArena t a).addToMine t a) h →
      ∃ lists, h.InLists lists := by
  intro hall
  generalize hk : (bothRetired.promoteArena 1 0x200000).addToMine 1 0x200000 = k
  obtain ⟨lists, hl⟩ := hall k (hk ▸ bothRetired_promoted _)
  have hstale : k.head (some 1) ≠ 0 ∧ k.prevArena (k.head (some 1)) ≠ none := by
    rw [← hk]
    decide +kernel
  have hfirst := hl.first (some 1)
  have hlinks := hl.links (some 1)
  rw [Linked.link_of_ne hstale.1] at hfirst
  cases heq : lists (some 1) with
  | nil =>
      rw [heq] at hfirst
      cases hfirst
  | cons a as =>
      rw [heq] at hfirst hlinks
      obtain rfl := Option.some.inj hfirst
      exact hstale.2 hlinks.1

end Heap

end Beelzebub.Valloc
