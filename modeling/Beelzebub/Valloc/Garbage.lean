import Beelzebub.Lib.Linked
import Mathlib.Data.List.Nodup
import Mathlib.Data.List.Perm.Basic
import Mathlib.Logic.Function.Basic

/-!
# Remote frees

A thread that frees a chunk of another thread's arena pushes it on the free list of the arena,
by compare-exchange.  The owner takes the list as a whole, frees the chunks one by one and,
when one of them is large enough for what it looks for, puts the rest back.

A step is one access of the free list with the accesses of chunks that only the thread itself
makes at the time.  The link of a chunk that is not queued is written at will: it shares its
place with the owner of the chunk and with the link of the free chunks.
-/

namespace Beelzebub.Valloc

/-! ## The code -/

inductive ChunkFlags where
  | none
  | free
  | queued
  deriving DecidableEq

inductive CollectionResult where
  | noGarbage
  | targetReached
  | collectedAll
  deriving DecidableEq

/-- Where a thread is with a chunk of the arena: before the load of the free list, or before
the exchange with what it has loaded. -/
inductive Freeing (κ : Type) where
  | idle
  | loading (c : κ)
  | exchanging (c : κ) (top : Option κ)

/-- The chunk that the thread is about to push. -/
def Freeing.chunk {κ : Type} : Freeing κ → Option κ
  | .idle => none
  | .loading c => some c
  | .exchanging c _ => some c

/-- Where the owner is in `CollectGarbage`: before the swap, before it frees a chunk of what
it took, at a chunk on the way to the last one of the `rest`, before the load of the free list,
before the exchange with what it has loaded, or back. -/
inductive Collecting (κ : Type) where
  | idle
  | swapping (target : Nat)
  | freeing (target : Nat) (cur : κ)
  | seeking (rest cur : κ)
  | loading (rest last : κ)
  | exchanging (rest last : κ) (top : Option κ)
  | returned (result : CollectionResult)

/-- The arena with its threads.  The last two fields are only for the record: what was pushed
on the list and what was passed to `FreeThisChunk`. -/
structure Arena (κ θ : Type) where
  nextInList : κ → Option κ
  flags : κ → ChunkFlags
  freeList : Option κ
  thread : θ → Freeing κ
  owner : Collecting κ
  pushed : List κ
  freed : List κ

namespace Arena

variable {κ θ : Type}

def initial : Arena κ θ where
  nextInList _ := none
  flags _ := .free
  freeList := none
  thread _ := .idle
  owner := .idle
  pushed := []
  freed := []

variable [DecidableEq κ] [DecidableEq θ]

def setNext (c : κ) (next : Option κ) (m : Arena κ θ) : Arena κ θ :=
  { m with nextInList := Function.update m.nextInList c next }

def setFlags (c : κ) (flags : ChunkFlags) (m : Arena κ θ) : Arena κ θ :=
  { m with flags := Function.update m.flags c flags }

def setThread (t : θ) (f : Freeing κ) (m : Arena κ θ) : Arena κ θ :=
  { m with thread := Function.update m.thread t f }

def setOwner (o : Collecting κ) (m : Arena κ θ) : Arena κ θ := { m with owner := o }

/-- `top = FreeList.Pointer`. -/
def load (t : θ) (m : Arena κ θ) : Arena κ θ :=
  match m.thread t with
  | .loading c => m.setThread t (.exchanging c m.freeList)
  | .idle => m
  | .exchanging _ _ => m

/-- `c->NextInList = top` and the exchange. -/
def exchange (t : θ) (m : Arena κ θ) : Arena κ θ :=
  match m.thread t with
  | .exchanging c top =>
      let m := m.setNext c top
      if m.freeList = top then
        { m.setThread t .idle with freeList := some c, pushed := m.pushed ++ [c] }
      else m.setThread t (.exchanging c m.freeList)
  | .idle => m
  | .loading _ => m

/-- `FreeThisChunk`, as far as the list is concerned: the chunk is the allocator's. -/
def freeThisChunk (c : κ) (m : Arena κ θ) : Arena κ θ :=
  { m.setFlags c .free with freed := m.freed ++ [c] }

/-- The read at the start of `CollectGarbage`. -/
def collect (target : Nat) (m : Arena κ θ) : Arena κ θ :=
  match m.freeList with
  | none => m.setOwner (.returned .noGarbage)
  | some _ => m.setOwner (.swapping target)

/-- The next step of the owner; the chunk that it frees, with the free ones around it, is of
size `freeSize`. -/
def advance (freeSize : Nat) (m : Arena κ θ) : Arena κ θ :=
  match m.owner with
  | .idle => m
  | .returned _ => m
  | .swapping target =>
      match m.freeList with
      | none => m
      | some cur => { m.setOwner (.freeing target cur) with freeList := none }
  | .freeing target cur =>
      let next := m.nextInList cur
      let m := m.freeThisChunk cur
      if target ≠ 0 ∧ freeSize ≥ target then
        match next with
        | none => m.setOwner (.returned .targetReached)
        | some rest => m.setOwner (.seeking rest rest)
      else
        match next with
        | none => m.setOwner (.returned .collectedAll)
        | some cur => m.setOwner (.freeing target cur)
  | .seeking rest cur =>
      match m.nextInList cur with
      | none => m.setOwner (.loading rest cur)
      | some cur => m.setOwner (.seeking rest cur)
  | .loading rest last => m.setOwner (.exchanging rest last m.freeList)
  | .exchanging rest last top =>
      let m := m.setNext last top
      if m.freeList = top then
        { m.setOwner (.returned .targetReached) with freeList := some rest }
      else m.setOwner (.exchanging rest last m.freeList)

inductive Action (κ θ : Type) where
  | allocate (c : κ)
  | write (c : κ) (link : Option κ)
  | free (t : θ) (c : κ)
  | load (t : θ)
  | exchange (t : θ)
  | collect (target : Nat)
  | advance (freeSize : Nat)

def perform (m : Arena κ θ) : Action κ θ → Arena κ θ
  | .allocate c => m.setFlags c .none
  | .write c link => m.setNext c link
  | .free t c => (m.setFlags c .queued).setThread t (.loading c)
  | .load t => m.load t
  | .exchange t => m.exchange t
  | .collect target => m.collect target
  | .advance freeSize => m.advance freeSize

/-- Free chunks are handed out, busy ones are freed by a thread that is not freeing another
one, and the owner is in one call of `CollectGarbage` at a time. -/
def Enabled (m : Arena κ θ) : Action κ θ → Prop
  | .allocate c => m.flags c = .free
  | .write c _ => m.flags c ≠ .queued
  | .free t c => (m.thread t).chunk = none ∧ m.flags c = .none
  | .load _ => True
  | .exchange _ => True
  | .collect _ => m.owner = .idle ∨ ∃ r, m.owner = .returned r
  | .advance _ => True

inductive Reachable : Arena κ θ → Prop
  | start : Reachable initial
  | step {m : Arena κ θ} (a : Action κ θ) : Reachable m → m.Enabled a → Reachable (m.perform a)

/-! ## What is asked -/

/-- What the owner has taken from the list and not freed. -/
def Detached (next : κ → Option κ) : Collecting κ → List κ → Prop
  | .idle, xs => xs = []
  | .swapping _, xs => xs = []
  | .freeing _ cur, xs => Linked.Chain next (some cur) xs
  | .seeking rest cur, xs => ∃ front back, xs = front ++ back ∧
      Linked.Path next (some cur) (some rest) front ∧ Linked.Chain next (some cur) back
  | .loading rest last, xs => ∃ front, xs = front ++ [last] ∧
      Linked.Path next (some last) (some rest) front
  | .exchanging rest last _, xs => ∃ front, xs = front ++ [last] ∧
      Linked.Path next (some last) (some rest) front
  | .returned _, xs => xs = []

/-- Every chunk pushed is on the list, in what the owner has taken, or was freed, each time it
was pushed once; the owner never meets an empty list after the test; and when the target was
reached what is not freed is on the list. -/
structure Accounted (m : Arena κ θ) : Prop where
  once : ∃ detached listed, Detached m.nextInList m.owner detached ∧
    Linked.Chain m.nextInList m.freeList listed ∧
    m.pushed.Perm (m.freed ++ (detached ++ listed)) ∧ (detached ++ listed).Nodup
  swap : ∀ target, m.owner = .swapping target → m.freeList ≠ none
  restored : m.owner = .returned .targetReached →
    ∃ listed, Linked.Chain m.nextInList m.freeList listed ∧ m.pushed.Perm (m.freed ++ listed)

/-! ## The invariant -/

structure Inv (m : Arena κ θ) (xs ys : List κ) : Prop where
  detached : Detached m.nextInList m.owner xs
  listed : Linked.Chain m.nextInList m.freeList ys
  pushed : m.pushed.Perm (m.freed ++ (xs ++ ys))
  nodup : (xs ++ ys).Nodup
  queued : ∀ c ∈ xs ++ ys, m.flags c = .queued
  thread : ∀ t c, (m.thread t).chunk = some c → m.flags c = .queued ∧ c ∉ xs ++ ys
  distinct : ∀ t u c, (m.thread t).chunk = some c → (m.thread u).chunk = some c → t = u
  swap : ∀ target, m.owner = .swapping target → m.freeList ≠ none

variable {m : Arena κ θ} {xs ys : List κ} {c : κ} {t : θ} {next next' : κ → Option κ}

omit [DecidableEq κ] in
theorem Detached.congr {o : Collecting κ} (h : Detached next o xs)
    (hsame : ∀ x ∈ xs, next' x = next x) : Detached next' o xs := by
  have hpath : ∀ {front back : List κ} {s e : Option κ}, xs = front ++ back →
      Linked.Path next e s front → Linked.Path next' e s front := by
    intro front back s e hxs hp
    refine (Linked.path_congr fun x hx => hsame x ?_).mpr hp
    rw [hxs]
    exact List.mem_append_left _ hx
  cases o with
  | idle => exact h
  | swapping target => exact h
  | freeing target cur => exact (Linked.chain_congr hsame).mpr h
  | seeking rest cur =>
      obtain ⟨front, back, hxs, hfront, hback⟩ := h
      refine ⟨front, back, hxs, hpath hxs hfront, (Linked.chain_congr fun x hx => ?_).mpr hback⟩
      refine hsame x ?_
      rw [hxs]
      exact List.mem_append_right _ hx
  | loading rest last =>
      obtain ⟨front, hxs, hfront⟩ := h
      exact ⟨front, hxs, hpath hxs hfront⟩
  | exchanging rest last top =>
      obtain ⟨front, hxs, hfront⟩ := h
      exact ⟨front, hxs, hpath hxs hfront⟩
  | returned r => exact h

omit [DecidableEq κ] [DecidableEq θ] in
theorem inv_initial : (initial : Arena κ θ).Inv [] [] := by
  refine ⟨rfl, rfl, List.Perm.refl _, List.nodup_nil, ?_, ?_, ?_, ?_⟩
  · intro c hc
    cases hc
  · intro t c hc
    cases hc
  · intro t u c hc
    cases hc
  · intro target ht
    cases ht

omit [DecidableEq κ] [DecidableEq θ] in
theorem Inv.toAccounted (h : m.Inv xs ys) : m.Accounted := by
  refine ⟨⟨xs, ys, h.detached, h.listed, h.pushed, h.nodup⟩, h.swap, ?_⟩
  intro hreturned
  have hnil : xs = [] := by
    have hd := h.detached
    rw [hreturned] at hd
    exact hd
  have hpushed := h.pushed
  rw [hnil, List.nil_append] at hpushed
  exact ⟨ys, h.listed, hpushed⟩

/-! ### The other steps -/

omit [DecidableEq θ] in
/-- A link that is not in use may change. -/
theorem Inv.setNext (h : m.Inv xs ys) (next : Option κ) (hc : c ∉ xs ++ ys) :
    (m.setNext c next).Inv xs ys := by
  have hsame : ∀ x ∈ xs ++ ys, (m.setNext c next).nextInList x = m.nextInList x := by
    intro x hx
    refine Function.update_of_ne ?_ _ _
    rintro rfl
    exact hc hx
  refine ⟨h.detached.congr fun x hx => hsame x (List.mem_append_left _ hx), ?_, h.pushed, h.nodup,
    h.queued, h.thread, h.distinct, h.swap⟩
  exact (Linked.chain_congr fun x hx => hsame x (List.mem_append_right _ hx)).mpr h.listed

omit [DecidableEq κ] [DecidableEq θ] in
theorem Inv.not_mem (h : m.Inv xs ys) (hc : m.flags c ≠ .queued) : c ∉ xs ++ ys :=
  fun hmem => hc (h.queued c hmem)

omit [DecidableEq κ] [DecidableEq θ] in
theorem Inv.not_pushing (h : m.Inv xs ys) (hc : m.flags c ≠ .queued) (t : θ) :
    (m.thread t).chunk ≠ some c :=
  fun ht => hc (h.thread t c ht).1

omit [DecidableEq θ] in
theorem Inv.setFlags (h : m.Inv xs ys) (hc : m.flags c ≠ .queued) (flags : ChunkFlags) :
    (m.setFlags c flags).Inv xs ys := by
  have hsame : ∀ x, x ≠ c → (m.setFlags c flags).flags x = m.flags x := fun x hx =>
    Function.update_of_ne hx _ _
  refine ⟨h.detached, h.listed, h.pushed, h.nodup, ?_, ?_, h.distinct, h.swap⟩
  · intro x hx
    rw [hsame x ?_]
    · exact h.queued x hx
    · rintro rfl
      exact h.not_mem hc hx
  · intro t x hx
    obtain ⟨hq, hout⟩ := h.thread t x hx
    rw [hsame x ?_]
    · exact ⟨hq, hout⟩
    · rintro rfl
      exact h.not_pushing hc t hx

omit [DecidableEq κ] in
/-- A thread goes on with the chunk that it has, or drops it. -/
theorem Inv.setThread (h : m.Inv xs ys) {f : Freeing κ}
    (hf : ∀ x, f.chunk = some x → m.flags x = .queued ∧ x ∉ xs ++ ys ∧
      ∀ u, u ≠ t → (m.thread u).chunk ≠ some x) : (m.setThread t f).Inv xs ys := by
  have hthread : ∀ u, (m.setThread t f).thread u = if u = t then f else m.thread u := by
    intro u
    show Function.update m.thread t f u = _
    by_cases hu : u = t
    · rw [hu, Function.update_self, if_pos rfl]
    · rw [Function.update_of_ne hu, if_neg hu]
  refine ⟨h.detached, h.listed, h.pushed, h.nodup, h.queued, ?_, ?_, h.swap⟩
  · intro u x hx
    rw [hthread] at hx
    split at hx
    · exact ⟨(hf x hx).1, (hf x hx).2.1⟩
    · exact h.thread u x hx
  · intro u v x hu hv
    rw [hthread] at hu hv
    split at hu
    · next hut =>
      split at hv
      · next hvt => rw [hut, hvt]
      · next hvt => exact absurd hv ((hf x hu).2.2 v hvt)
    · next hut =>
      split at hv
      · exact absurd hu ((hf x hv).2.2 u hut)
      · exact h.distinct u v x hu hv

theorem Inv.free (h : m.Inv xs ys) (hc : m.flags c = .none) :
    (m.perform (.free t c)).Inv xs ys := by
  have hnot : m.flags c ≠ .queued := by
    rw [hc]
    exact nofun
  refine (h.setFlags hnot .queued).setThread ?_
  intro x hx
  obtain rfl : c = x := Option.some.inj hx
  exact ⟨Function.update_self _ _ _, h.not_mem hnot, fun u _ => h.not_pushing hnot u⟩

omit [DecidableEq κ] in
theorem Inv.load (h : m.Inv xs ys) : (m.load t).Inv xs ys := by
  unfold Arena.load
  split
  · next c ht =>
    refine h.setThread fun x hx => ?_
    obtain rfl : c = x := Option.some.inj hx
    have hchunk : (m.thread t).chunk = some c := by
      rw [ht]
      rfl
    obtain ⟨hq, hout⟩ := h.thread t c hchunk
    exact ⟨hq, hout, fun u hu hcu => hu (h.distinct u t c hcu hchunk)⟩
  · exact h
  · exact h

/-! ### Pushing -/

omit [DecidableEq κ] in
/-- The exchange links the chunk in front of the list as it is. -/
theorem Inv.push (h : m.Inv xs ys) {top : Option κ} (ht : m.thread t = .exchanging c top)
    (hnext : m.nextInList c = m.freeList) :
    Inv { m.setThread t .idle with freeList := some c, pushed := m.pushed ++ [c] }
      xs (c :: ys) := by
  have hchunk : (m.thread t).chunk = some c := by
    rw [ht]
    rfl
  obtain ⟨hqueued, hout⟩ := h.thread t c hchunk
  have hmid := h.setThread (f := .idle) (t := t) fun x hx => by cases hx
  refine ⟨h.detached, ⟨rfl, hnext ▸ h.listed⟩, ?_, ?_, ?_, ?_, hmid.distinct, ?_⟩
  · have hpush := (List.perm_append_singleton c m.pushed).trans (h.pushed.cons c)
    refine hpush.trans ?_
    rw [← List.append_assoc, ← List.append_assoc]
    exact List.perm_middle.symm
  · exact (List.perm_middle.nodup_iff).mpr (List.nodup_cons.mpr ⟨hout, h.nodup⟩)
  · intro x hx
    rcases List.mem_cons.mp (List.perm_middle.mem_iff.mp hx) with rfl | hx
    · exact hqueued
    · exact h.queued x hx
  · intro u x hu
    obtain ⟨hq, hnot⟩ := hmid.thread u x hu
    refine ⟨hq, fun hx => ?_⟩
    rcases List.mem_cons.mp (List.perm_middle.mem_iff.mp hx) with rfl | hx
    · -- the chunk was pushed by this thread, which has let go of it
      change (Function.update m.thread t .idle u).chunk = some x at hu
      by_cases hut : u = t
      · rw [hut, Function.update_self] at hu
        cases hu
      · rw [Function.update_of_ne hut] at hu
        exact hut (h.distinct u t x hu hchunk)
    · exact hnot hx
  · intro target _
    exact nofun

theorem Inv.exchange (h : m.Inv xs ys) : ∃ ys', (m.exchange t).Inv xs ys' := by
  unfold Arena.exchange
  split
  · next c top ht =>
    have hchunk : (m.thread t).chunk = some c := by
      rw [ht]
      rfl
    obtain ⟨hq, hout⟩ := h.thread t c hchunk
    have hstored := h.setNext top hout
    dsimp only
    split
    · next htop =>
      refine ⟨c :: ys, hstored.push ht ?_⟩
      show Function.update m.nextInList c top c = m.freeList
      rw [Function.update_self]
      exact htop.symm
    · refine ⟨ys, hstored.setThread fun x hx => ?_⟩
      obtain rfl : c = x := Option.some.inj hx
      exact ⟨hq, hout, fun u hu hcu => hu (h.distinct u t c hcu hchunk)⟩
  · exact ⟨ys, h⟩
  · exact ⟨ys, h⟩

/-! ### Collecting -/

omit [DecidableEq κ] [DecidableEq θ] in
/-- The owner goes on with the same chunks. -/
theorem Inv.setOwner (h : m.Inv xs ys) {o : Collecting κ} (hd : Detached m.nextInList o xs)
    (hswap : ∀ target, o = .swapping target → m.freeList ≠ none) : (m.setOwner o).Inv xs ys :=
  ⟨hd, h.listed, h.pushed, h.nodup, h.queued, h.thread, h.distinct, hswap⟩

omit [DecidableEq κ] [DecidableEq θ] in
theorem Inv.collect (h : m.Inv xs ys) (howner : m.owner = .idle ∨ ∃ r, m.owner = .returned r)
    (target : Nat) : (m.collect target).Inv xs ys := by
  have hnil : xs = [] := by
    have hd := h.detached
    rcases howner with ho | ⟨r, ho⟩
    · rw [ho] at hd
      exact hd
    · rw [ho] at hd
      exact hd
  unfold Arena.collect
  split
  · exact h.setOwner hnil nofun
  · next top htop =>
    refine h.setOwner hnil fun _ _ => ?_
    rw [htop]
    exact nofun

omit [DecidableEq κ] [DecidableEq θ] in
/-- The swap takes the whole list. -/
theorem Inv.swapAll (h : m.Inv [] ys) {target : Nat} {cur : κ} (hlist : m.freeList = some cur) :
    Inv { m.setOwner (.freeing target cur) with freeList := none } ys [] := by
  have hlisted := h.listed
  rw [hlist] at hlisted
  refine ⟨hlisted, rfl, ?_, ?_, ?_, ?_, h.distinct, nofun⟩
  · rw [List.append_nil]
    exact h.pushed
  · rw [List.append_nil]
    exact h.nodup
  · rw [List.append_nil]
    exact h.queued
  · rw [List.append_nil]
    exact h.thread

omit [DecidableEq θ] in
/-- The chunk at the head of what was taken is freed, and the owner goes on with the others. -/
theorem Inv.freeHead {cur : κ} (h : m.Inv (cur :: xs) ys) {o : Collecting κ}
    (hd : Detached m.nextInList o xs) (hswap : ∀ target, o ≠ .swapping target) :
    ((m.freeThisChunk cur).setOwner o).Inv xs ys := by
  obtain ⟨hcur, hnodup⟩ := List.nodup_cons.mp h.nodup
  have hsame : ∀ x, x ≠ cur → (m.freeThisChunk cur).flags x = m.flags x := fun x hx =>
    Function.update_of_ne hx _ _
  refine ⟨hd, h.listed, ?_, hnodup, ?_, ?_, h.distinct, fun target ht => absurd ht (hswap target)⟩
  · show m.pushed.Perm (m.freed ++ [cur] ++ (xs ++ ys))
    rw [List.append_assoc]
    exact h.pushed
  · intro x hx
    show (m.freeThisChunk cur).flags x = .queued
    rw [hsame x ?_]
    · exact h.queued x (List.mem_cons_of_mem _ hx)
    · rintro rfl
      exact hcur hx
  · intro t x hx
    obtain ⟨hq, hout⟩ := h.thread t x hx
    refine ⟨?_, fun hmem => hout (List.mem_cons_of_mem _ hmem)⟩
    show (m.freeThisChunk cur).flags x = .queued
    rw [hsame x ?_]
    · exact hq
    · rintro rfl
      exact hout List.mem_cons_self

omit [DecidableEq κ] [DecidableEq θ] in
/-- The exchange links what was taken in front of the list as it is. -/
theorem Inv.putBack {rest last : κ} {front : List κ} (h : m.Inv (front ++ [last]) ys)
    (hpath : Linked.Path m.nextInList (some last) (some rest) front)
    (hnext : m.nextInList last = m.freeList) :
    Inv { m.setOwner (.returned .targetReached) with freeList := some rest }
      [] (front ++ [last] ++ ys) := by
  refine ⟨rfl, ?_, h.pushed, h.nodup, h.queued, h.thread, h.distinct, nofun⟩
  exact (hpath.concat hnext).chain h.listed

omit [DecidableEq θ] in
/-- The link of the last chunk is the owner's to write. -/
theorem Inv.relinkLast {rest last : κ} {front : List κ} {top : Option κ}
    (h : m.Inv (front ++ [last]) ys) (howner : m.owner = .exchanging rest last top)
    (hpath : Linked.Path m.nextInList (some last) (some rest) front) :
    (m.setNext last top).Inv (front ++ [last]) ys ∧
      Linked.Path (m.setNext last top).nextInList (some last) (some rest) front := by
  obtain ⟨hfront, -, hdisjoint⟩ := List.nodup_append.mp h.nodup
  have hsame : ∀ x, x ≠ last → (m.setNext last top).nextInList x = m.nextInList x := fun x hx =>
    Function.update_of_ne hx _ _
  have hpath' : Linked.Path (m.setNext last top).nextInList (some last) (some rest) front := by
    refine (Linked.path_congr fun x hx => hsame x ?_).mpr hpath
    exact (List.nodup_append.mp hfront).2.2 x hx last (List.mem_singleton_self last)
  refine ⟨⟨?_, ?_, h.pushed, h.nodup, h.queued, h.thread, h.distinct, h.swap⟩, hpath'⟩
  · show Detached _ m.owner _
    rw [howner]
    exact ⟨front, rfl, hpath'⟩
  · refine (Linked.chain_congr fun x hx => hsame x ?_).mpr h.listed
    exact (hdisjoint last (by simp) x hx).symm

omit [DecidableEq θ] in
theorem Inv.advance (h : m.Inv xs ys) (freeSize : Nat) :
    ∃ xs' ys', (m.advance freeSize).Inv xs' ys' := by
  have hd := h.detached
  unfold Arena.advance
  split
  · exact ⟨xs, ys, h⟩
  · exact ⟨xs, ys, h⟩
  · next target howner =>
    rw [howner] at hd
    obtain rfl : xs = [] := hd
    split
    · exact ⟨[], ys, h⟩
    · next cur hlist => exact ⟨ys, [], h.swapAll hlist⟩
  · next target cur howner =>
    rw [howner] at hd
    cases xs with
    | nil => cases hd
    | cons x xs =>
        obtain ⟨hcur, hrest⟩ := hd
        obtain rfl : cur = x := Option.some.inj hcur
        dsimp only
        split
        · split
          · next hnext =>
            rw [hnext] at hrest
            obtain rfl : xs = [] := by
              cases xs with
              | nil => rfl
              | cons y ys => cases hrest.1
            exact ⟨[], ys, h.freeHead rfl nofun⟩
          · next rest hnext =>
            rw [hnext] at hrest
            exact ⟨xs, ys, h.freeHead ⟨[], xs, rfl, rfl, hrest⟩ nofun⟩
        · split
          · next hnext =>
            rw [hnext] at hrest
            obtain rfl : xs = [] := by
              cases xs with
              | nil => rfl
              | cons y ys => cases hrest.1
            exact ⟨[], ys, h.freeHead rfl nofun⟩
          · next rest hnext =>
            rw [hnext] at hrest
            exact ⟨xs, ys, h.freeHead hrest nofun⟩
  · next rest cur howner =>
    rw [howner] at hd
    obtain ⟨front, back, rfl, hfront, hback⟩ := hd
    cases back with
    | nil => cases hback
    | cons x back =>
        obtain ⟨hcur, hback⟩ := hback
        obtain rfl : cur = x := Option.some.inj hcur
        split
        · next hnext =>
          rw [hnext] at hback
          obtain rfl : back = [] := by
            cases back with
            | nil => rfl
            | cons y ys => cases hback.1
          exact ⟨_, ys, h.setOwner ⟨front, rfl, hfront⟩ nofun⟩
        · next cur' hnext =>
          rw [hnext] at hback
          refine ⟨_, ys, h.setOwner ⟨front ++ [cur], back, ?_, hfront.concat hnext, hback⟩ nofun⟩
          rw [List.append_assoc]
          rfl
  · next rest last howner =>
    rw [howner] at hd
    exact ⟨xs, ys, h.setOwner hd nofun⟩
  · next rest last top howner =>
    rw [howner] at hd
    obtain ⟨front, rfl, hfront⟩ := hd
    obtain ⟨hstored, hfront'⟩ := h.relinkLast howner hfront
    dsimp only
    split
    · next htop =>
      refine ⟨[], _, hstored.putBack hfront' ?_⟩
      show Function.update m.nextInList last top last = m.freeList
      rw [Function.update_self]
      exact htop.symm
    · exact ⟨_, ys, hstored.setOwner ⟨front, rfl, hfront'⟩ nofun⟩

/-! ## Runs -/

theorem Inv.step (h : m.Inv xs ys) (a : Action κ θ) (ha : m.Enabled a) :
    ∃ xs' ys', (m.perform a).Inv xs' ys' := by
  cases a with
  | allocate c =>
      refine ⟨xs, ys, h.setFlags ?_ .none⟩
      rw [show m.flags c = .free from ha]
      exact nofun
  | write c link => exact ⟨xs, ys, h.setNext link (h.not_mem ha)⟩
  | free t c => exact ⟨xs, ys, h.free ha.2⟩
  | load t => exact ⟨xs, ys, h.load⟩
  | exchange t =>
      obtain ⟨ys', h'⟩ := h.exchange (t := t)
      exact ⟨xs, ys', h'⟩
  | collect target => exact ⟨xs, ys, h.collect ha target⟩
  | advance freeSize => exact h.advance freeSize

theorem Reachable.inv (h : Reachable m) : ∃ xs ys, m.Inv xs ys := by
  induction h with
  | start => exact ⟨[], [], inv_initial⟩
  | step a _ ha ih =>
      obtain ⟨xs, ys, h⟩ := ih
      exact h.step a ha

end Arena

end Beelzebub.Valloc
