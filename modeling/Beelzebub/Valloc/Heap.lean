import Beelzebub.Lib.Word
import Beelzebub.Valloc.Garbage
import Mathlib.Data.Nat.Notation
import Mathlib.Logic.Function.Basic

/-!
# The heap of valloc

Memory is taken from the platform in arenas of large pages.  Behind the header of an arena
there are chunks, each with a header of its own; the free ones are in a list, in the order of
their addresses.

Memory is kept as lines of eight words, and the words of a line apart, by their place in it.
The first five have the names that they have where the line is the first one of a chunk: `link`
is the union of `Owner`, `NextInList` and `PrevFree`, and `nextFree` is where the contents of a
busy chunk start.  Headers of arenas are not in these lines.

A run that fails an assertion, follows a null pointer or writes behind the end of an arena has
no result.
-/

namespace Beelzebub.Valloc

/-- The header of an arena. -/
structure Heap.Arena (θ : Type) where
  prev : ℕ
  next : ℕ
  size : ℕ
  free : ℕ
  owner : Option θ
  lastFree : ℕ
  lastBusy : ℕ
  freeList : ℕ

/-- Memory with the arenas of all threads.  The last field is only for the record: the arenas
that the platform has given and not got back. -/
structure Heap (θ : Type) where
  link : ℕ → ℕ
  prev : ℕ → ℕ
  size : ℕ → ℕ
  flags : ℕ → ℕ
  nextFree : ℕ → ℕ
  rest : ℕ → ℕ → ℕ
  arenas : ℕ → Heap.Arena θ
  firstArena : θ → ℕ
  gList : ℕ
  live : List ℕ

/-- What the platform answers: the address of a new arena, and whether there is a large page
at the end of an arena. -/
structure Platform (θ : Type) where
  fresh : Heap θ → Option ℕ
  grants : Heap θ → ℕ → Bool

namespace Heap

abbrev cacheLineSize : ℕ := 64

abbrev pageSize : ℕ := 0x1000

abbrev largePageSize : ℕ := 0x200000

/-- `sizeof(Chunk)`. -/
abbrev chunkSize : ℕ := 32

/-- `ARENA_SIZE`. -/
abbrev arenaSize : ℕ := 128

/-- `RoundUp(size + sizeof(Chunk), Platform::CacheLineSize)`. -/
def roundSize (size : ℕ) : ℕ :=
  Word.add (Word.add size chunkSize) (cacheLineSize - 1) / cacheLineSize * cacheLineSize

variable {θ : Type}

/-! ## Chunks -/

def isBusy (h : Heap θ) (c : ℕ) : Bool := h.flags c == 0

def isFree (h : Heap θ) (c : ℕ) : Bool := h.flags c == 1

def getNext (h : Heap θ) (c : ℕ) : ℕ := Word.add c (h.size c)

def getContents (c : ℕ) : ℕ := Word.add c chunkSize

def fromContents (ptr : ℕ) : ℕ := Word.sub ptr chunkSize

def setLink (c v : ℕ) (h : Heap θ) : Heap θ := { h with link := Function.update h.link c v }

def setPrev (c v : ℕ) (h : Heap θ) : Heap θ := { h with prev := Function.update h.prev c v }

def setSize (c v : ℕ) (h : Heap θ) : Heap θ := { h with size := Function.update h.size c v }

def setFlags (c v : ℕ) (h : Heap θ) : Heap θ := { h with flags := Function.update h.flags c v }

def setNextFree (c v : ℕ) (h : Heap θ) : Heap θ :=
  { h with nextFree := Function.update h.nextFree c v }

/-- `new (c) BusyChunk(owner, prev, size)`. -/
def busyChunk (c owner prev size : ℕ) (h : Heap θ) : Heap θ :=
  (((h.setLink c owner).setPrev c prev).setSize c size).setFlags c 0

/-- `new (c) FreeChunk(prevFree, prev, size, nextFree)`. -/
def freeChunk (c prevFree prev size nextFree : ℕ) (h : Heap θ) : Heap θ :=
  ((((h.setLink c prevFree).setPrev c prev).setSize c size).setFlags c 1).setNextFree c nextFree

/-! ## Headers of arenas -/

def modifyArena (a : ℕ) (f : Arena θ → Arena θ) (h : Heap θ) : Heap θ :=
  { h with arenas := Function.update h.arenas a (f (h.arenas a)) }

def setFree (a v : ℕ) (h : Heap θ) : Heap θ := h.modifyArena a fun A => { A with free := v }

def setLastFree (a v : ℕ) (h : Heap θ) : Heap θ :=
  h.modifyArena a fun A => { A with lastFree := v }

def setLastBusy (a v : ℕ) (h : Heap θ) : Heap θ :=
  h.modifyArena a fun A => { A with lastBusy := v }

def setFreeList (a v : ℕ) (h : Heap θ) : Heap θ :=
  h.modifyArena a fun A => { A with freeList := v }

def setOwner (a : ℕ) (v : Option θ) (h : Heap θ) : Heap θ :=
  h.modifyArena a fun A => { A with owner := v }

def setArenaPrev (a v : ℕ) (h : Heap θ) : Heap θ := h.modifyArena a fun A => { A with prev := v }

def setArenaNext (a v : ℕ) (h : Heap θ) : Heap θ := h.modifyArena a fun A => { A with next := v }

def getEnd (h : Heap θ) (a : ℕ) : ℕ := Word.add a (h.arenas a).size

def isEmpty (h : Heap θ) (a : ℕ) : Bool :=
  (h.arenas a).free == Word.sub (h.arenas a).size arenaSize

/-- More than the number of chunks of an arena: enough for any loop over them. -/
def fuel (h : Heap θ) (a : ℕ) : ℕ := (h.arenas a).size / cacheLineSize + 1

/-! ## Links between chunks -/

/-- A write that is made only if `b`. -/
def patch (b : Bool) (f : ℕ → ℕ) (x v : ℕ) : ℕ → ℕ := if b then Function.update f x v else f

section Patch

variable {b : Bool} {f : ℕ → ℕ} {x v y e : ℕ}

theorem patch_of_ne (h : y ≠ x) : patch b f x v y = f y := by
  cases b with
  | false => rfl
  | true => exact Function.update_of_ne h v f

@[simp] theorem patch_false : patch false f x v = f := rfl

@[simp] theorem patch_true : patch true f x v = Function.update f x v := rfl

theorem patch_congr {g : ℕ → ℕ} (h : g y = f y) : patch b g x v y = patch b f x v y := by
  cases b with
  | false => exact h
  | true => rw [patch_true, patch_true, Function.update_apply, Function.update_apply, h]

theorem patch_bne (h : x ≠ 0 → y ≠ x) : patch (x != 0) f x v y = f y := by
  by_cases hx : x = 0
  · subst hx
    rfl
  · exact patch_of_ne (h hx)

theorem patch_blt (h : x < e → y ≠ x) : patch (x.blt e) f x v y = f y := by
  by_cases hx : x < e
  · exact patch_of_ne (h hx)
  · have hnot : x.blt e = false := by rwa [Bool.eq_false_iff, ne_eq, Nat.blt_eq]
    rw [hnot, patch_false]

theorem patch_blt_self (h : x < e) : patch (x.blt e) f x v x = v := by
  rw [Nat.blt_eq.mpr h, patch_true, Function.update_self]

end Patch

/-- `Prev` of the chunk at `x`, if it is in the arena. -/
def linkPrev (a x c : ℕ) (h : Heap θ) : Heap θ :=
  { h with prev := patch (x.blt (h.getEnd a)) h.prev x c }

/-- `NextFree` of the chunk `x`, if there is one. -/
def linkNextFree (x c : ℕ) (h : Heap θ) : Heap θ :=
  { h with nextFree := patch (x != 0) h.nextFree x c }

/-- `PrevFree` of the chunk `x`, if there is one, and `LastFree` of the arena otherwise. -/
def linkPrevFree (a x c : ℕ) (h : Heap θ) : Heap θ :=
  { h with
    link := patch (x != 0) h.link x c
    arenas := Function.update h.arenas a
      { h.arenas a with lastFree := if x ≠ 0 then (h.arenas a).lastFree else c } }

/-- `LastBusy` of the arena, if it is the chunk `c`. -/
def replaceLastBusy (a c v : ℕ) (h : Heap θ) : Heap θ :=
  h.modifyArena a fun A => { A with lastBusy := if A.lastBusy = c then v else A.lastBusy }

/-! ## Linkage of arenas -/

section Linkage

variable [DecidableEq θ]

def setFirstArena (t : θ) (a : ℕ) (h : Heap θ) : Heap θ :=
  { h with firstArena := Function.update h.firstArena t a }

def unlinkArena (a : ℕ) (h : Heap θ) : Heap θ :=
  let h :=
    if (h.arenas a).prev ≠ 0 then h.setArenaNext (h.arenas a).prev (h.arenas a).next else h
  if (h.arenas a).next ≠ 0 then h.setArenaPrev (h.arenas a).next (h.arenas a).prev else h

def addToMine (t : θ) (a : ℕ) (h : Heap θ) : Heap θ :=
  let h := h.setArenaNext a (h.firstArena t)
  let h := if (h.arenas a).next ≠ 0 then h.setArenaPrev (h.arenas a).next a else h
  h.setFirstArena t a

def removeFromMine (t : θ) (a : ℕ) (h : Heap θ) : Heap θ :=
  if h.firstArena t = a then
    let h := h.setFirstArena t (h.arenas a).next
    if h.firstArena t ≠ 0 then h.setArenaPrev (h.firstArena t) 0 else h
  else h.unlinkArena a

def retireArena (t : θ) (a : ℕ) (h : Heap θ) : Heap θ :=
  let h := h.removeFromMine t a
  let h := h.setArenaPrev a 0
  let h := h.setOwner a none
  let h := h.setArenaNext a h.gList
  let h := if (h.arenas a).next ≠ 0 then h.setArenaPrev h.gList a else h
  { h with gList := a }

def promoteArena (t : θ) (a : ℕ) (h : Heap θ) : Heap θ :=
  let h := h.setOwner a (some t)
  if h.gList = a then
    let h := { h with gList := (h.arenas a).next }
    if h.gList ≠ 0 then h.setArenaPrev h.gList 0 else h
  else h.unlinkArena a

/-! ## Arenas -/

/-- `new (addr) Arena(owner, size)`. -/
def newArena (addr : ℕ) (owner : θ) (size : ℕ) (h : Heap θ) : Heap θ :=
  { h with
    arenas := Function.update h.arenas addr
      { prev := 0, next := 0, size := size, free := Word.sub size arenaSize, owner := some owner,
        lastFree := Word.add addr arenaSize, lastBusy := 0, freeList := 0 }
    live := addr :: h.live }

def allocateArena (platform : Platform θ) (t : θ) (h : Heap θ) : Option (ℕ × Heap θ) :=
  match platform.fresh h with
  | none => none
  | some addr => some (addr, (h.newArena addr t largePageSize).addToMine t addr)

/-- The platform gives the memory at the end of the arena, or none. -/
def extendArena (platform : Platform θ) (a : ℕ) (h : Heap θ) : Option (Heap θ) :=
  if platform.grants h a then
    let «end» := h.getEnd a
    let h := h.modifyArena a fun A =>
      { A with size := Word.add A.size largePageSize, free := Word.add A.free largePageSize }
    let lastFree := (h.arenas a).lastFree
    if lastFree ≠ 0 ∧ h.getNext lastFree = «end» then
      some (h.setSize lastFree (Word.add (h.size lastFree) largePageSize))
    else
      let h := h.freeChunk «end» lastFree (h.arenas a).lastBusy largePageSize 0
      let h := h.setLastFree a «end»
      some (h.linkNextFree (h.link «end») «end»)
  else none

def deallocateArena (t : θ) (a : ℕ) (h : Heap θ) : Heap θ :=
  let h := h.removeFromMine t a
  { h with live := h.live.erase a }

end Linkage

/-! ## Freeing of chunks -/

def relinkFreeChunk (a c : ℕ) (h : Heap θ) : Heap θ :=
  let h := h.linkNextFree (h.link c) c
  let h := h.linkPrevFree a (h.nextFree c) c
  h.linkPrev a (h.getNext c) c

/-- The closest free chunk behind `c`, from one that is behind it. -/
def closestFree (h : Heap θ) (c : ℕ) : ℕ → ℕ → Option ℕ
  | 0, _ => none
  | fuel + 1, free => if h.link free > c then h.closestFree c fuel (h.link free) else some free

def introduceFreeChunk (a c : ℕ) (h : Heap θ) : Option (Heap θ) :=
  let lastFree := (h.arenas a).lastFree
  if lastFree = 0 then some (((h.setLink c 0).setNextFree c 0).setLastFree a c)
  else if lastFree > c then
    match h.closestFree c (h.fuel a) lastFree with
    | none => none
    | some free =>
        let h := h.setLink c (h.link free)
        let h := h.linkNextFree (h.link c) c
        let h := h.setLink free c
        some (h.setNextFree c free)
  else
    let h := h.setNextFree lastFree c
    let h := h.setLastFree a c
    some (h.setLink c lastFree)

/-- The chunk `c` between the free ones `p` and `n`; `nn` is behind them. -/
def mergeBoth (a p c n nn : ℕ) (h : Heap θ) : Heap θ :=
  let h := h.setSize p (Word.add (h.size p) (Word.add (h.size c) (h.size n)))
  let h := h.linkPrev a nn p
  let h := h.setNextFree p (h.nextFree n)
  h.linkPrevFree a (h.nextFree p) p

/-- The chunk `c` behind the free one `p`; `n` is behind it, if `b`. -/
def mergePrev (p c n : ℕ) (b : Bool) (h : Heap θ) : Heap θ :=
  let h := { h with prev := patch b h.prev n p }
  h.setSize p (Word.add (h.size p) (h.size c))

/-- The chunk `c` in front of the free one `n`; `nn` is behind them. -/
def mergeNext (a c n nn : ℕ) (h : Heap θ) : Heap θ :=
  let h := h.setSize c (Word.add (h.size c) (h.size n))
  let h := h.linkPrev a nn c
  let h := h.setLink c (h.link n)
  let h := h.linkNextFree (h.link c) c
  let h := h.setNextFree c (h.nextFree n)
  let h := h.linkPrevFree a (h.nextFree c) c
  h.replaceLastBusy a c (h.prev c)

/-- The free chunk that `c` is in now, and the heap. -/
def freeThisChunk (a c : ℕ) (h : Heap θ) : Option (ℕ × Heap θ) :=
  let h := h.setFree a (Word.add (h.arenas a).free (h.size c))
  let p := h.prev c
  let n := h.getNext c
  let nn := if n < h.getEnd a then h.getNext n else 0
  if p ≠ 0 ∧ h.isFree p then
    let h :=
      if nn ≠ 0 ∧ h.isFree n then h.mergeBoth a p c n nn else h.mergePrev p c n (nn != 0)
    some (p, h.replaceLastBusy a c (h.prev p))
  else
    let h := h.setFlags c 1
    if nn ≠ 0 ∧ h.isFree n then some (c, h.mergeNext a c n nn)
    else (h.introduceFreeChunk a c).map fun h => (c, h)

/-! ## Garbage -/

/-- The end of a queue. -/
def lastInList (h : Heap θ) : ℕ → ℕ → Option ℕ
  | 0, _ => none
  | fuel + 1, cur => if h.link cur ≠ 0 then h.lastInList fuel (h.link cur) else some cur

def collectFrom (a target : ℕ) : ℕ → ℕ → Heap θ → Option (CollectionResult × ℕ × Heap θ)
  | 0, _, _ => none
  | fuel + 1, cur, h =>
      let next := h.link cur
      match h.freeThisChunk a cur with
      | none => none
      | some (res, h) =>
          if target ≠ 0 ∧ h.size res ≥ target then
            if next ≠ 0 then
              match h.lastInList (h.fuel a) next with
              | none => none
              | some last =>
                  let h := h.setLink last (h.arenas a).freeList
                  some (.targetReached, res, h.setFreeList a next)
            else some (.targetReached, res, h)
          else if next ≠ 0 then collectFrom a target fuel next h
          else some (.collectedAll, res, h)

/-- The chunk is the last one freed, if there was garbage. -/
def collectGarbage (a target : ℕ) (h : Heap θ) : Option (CollectionResult × ℕ × Heap θ) :=
  let cur := (h.arenas a).freeList
  if cur = 0 then some (.noGarbage, 0, h)
  else collectFrom a target (h.fuel a) cur (h.setFreeList a 0)

/-! ## Allocation -/

section Allocation

variable [DecidableEq θ]

/-- The first chunk with room, from `c` down the list of free chunks. -/
def findChunk (h : Heap θ) (roundSize : ℕ) : ℕ → ℕ → Option ℕ
  | 0, _ => none
  | fuel + 1, c =>
      if c = 0 then some 0
      else if !h.isFree c then none
      else if h.size c < roundSize then h.findChunk roundSize fuel (h.link c)
      else some c

/-- A free chunk is used whole, or in part. -/
def takeChunk (a c roundSize : ℕ) (h : Heap θ) : Option (ℕ × Heap θ) :=
  if h.size c = roundSize then
    let h := h.setFlags c 0
    let h := h.linkNextFree (h.link c) (h.nextFree c)
    let h := h.linkPrevFree a (h.nextFree c) (h.link c)
    let h := if (h.arenas a).lastBusy < c then h.setLastBusy a c else h
    some (c, h.setLink c a)
  else
    let h := h.setSize c (Word.sub (h.size c) roundSize)
    let b := h.getNext c
    if h.getEnd a ≤ b then none
    else
      let h := h.busyChunk b a c roundSize
      if h.getNext b < h.getEnd a then some (b, h.setPrev (h.getNext b) b)
      else some (b, h.setLastBusy a b)

/-- The contents of a chunk that has an owner, in an arena that has a size. -/
def contentsOf (a c : ℕ) (h : Heap θ) : Option (ℕ × Heap θ) :=
  if h.link c = 0 ∨ (h.arenas a).size = 0 then none else some (getContents c, h)

def serveChunk (t : θ) (a c roundSize : ℕ) (h : Heap θ) : Option (ℕ × Heap θ) :=
  match h.takeChunk a c roundSize with
  | none => none
  | some (c, h) =>
      let h := h.setFree a (Word.sub (h.arenas a).free roundSize)
      if (h.arenas a).free = 0 then
        match h.collectGarbage a roundSize with
        | none => none
        | some (.noGarbage, _, h) => (h.retireArena t a).contentsOf a c
        | some (_, _, h) => h.contentsOf a c
      else h.contentsOf a c

/-- The chunks of one arena from `c` on, and those that there are after its garbage is collected
or more memory is behind it.  No address, if there is none with room. -/
def tryChunks (platform : Platform θ) (t : θ) (a roundSize : ℕ) :
    ℕ → ℕ → Heap θ → Option (Option ℕ × Heap θ)
  | 0, _, _ => none
  | fuel + 1, c, h =>
      match h.findChunk roundSize (h.fuel a) c with
      | none => none
      | some c =>
          if c ≠ 0 then (h.serveChunk t a c roundSize).map fun (ptr, h) => (some ptr, h)
          else
            match h.collectGarbage a roundSize with
            | none => none
            | some (.targetReached, c, h) => tryChunks platform t a roundSize fuel c h
            | some (_, _, h) =>
                match h.extendArena platform a with
                | none => some (none, h)
                | some h => tryChunks platform t a roundSize fuel (h.arenas a).lastFree h

def searchArenas (platform : Platform θ) (t : θ) (roundSize : ℕ) :
    ℕ → ℕ → Heap θ → Option (Option ℕ × Heap θ)
  | 0, _, _ => none
  | fuel + 1, a, h =>
      if a % pageSize ≠ 0 ∨ (h.arenas a).size = 0 then none
      else
        let c := if (h.arenas a).free < roundSize then 0 else (h.arenas a).lastFree
        match h.tryChunks platform t a roundSize (roundSize / largePageSize + 3) c with
        | none => none
        | some (some ptr, h) => some (some ptr, h)
        | some (none, h) =>
            if (h.arenas a).next = 0 then some (none, h)
            else h.searchArenas platform t roundSize fuel (h.arenas a).next

/-- The first chunk of a new arena, with a free one behind it. -/
def allocateInNewArena (platform : Platform θ) (t : θ) (roundSize : ℕ) (h : Heap θ) :
    Option (ℕ × Heap θ) :=
  match h.allocateArena platform t with
  | none => some (0, h)
  | some (a, h) =>
      let c := (h.arenas a).lastFree
      let h := (h.busyChunk c a 0 roundSize).setLastBusy a c
      let h := h.setFree a (Word.sub (h.arenas a).free roundSize)
      let n := h.getNext c
      if n < c ∨ h.getEnd a ≤ n then none
      else
        ((h.freeChunk n 0 c (h.arenas a).free 0).setLastFree a n).contentsOf a c

def allocateMemory (platform : Platform θ) (t : θ) (size : ℕ) (h : Heap θ) :
    Option (ℕ × Heap θ) :=
  let arena := h.firstArena t
  if arena = 0 then h.allocateInNewArena platform t (roundSize size)
  else
    match h.searchArenas platform t (roundSize size) h.live.length arena with
    | none => none
    | some (some ptr, h) => some (ptr, h)
    | some (none, h) => h.allocateInNewArena platform t (roundSize size)

/-! ## Deallocation -/

/-- A chunk in an arena of the thread is freed, and the arena if nothing else is in it. -/
def freeMyOwn (t : θ) (a c : ℕ) (h : Heap θ) : Option (Heap θ) :=
  match h.freeThisChunk a c with
  | none => none
  | some (_, h) => some (if h.isEmpty a then h.deallocateArena t a else h)

/-- A chunk in an arena of another thread is left for it. -/
def queueChunk (a c : ℕ) (h : Heap θ) : Heap θ :=
  let h := h.setFlags c 2
  (h.setLink c (h.arenas a).freeList).setFreeList a c

/-- A retired arena becomes one of the thread's. -/
def adoptArena (t : θ) (a : ℕ) (h : Heap θ) : Heap θ :=
  ((h.promoteArena t a).addToMine t a).setArenaPrev a 0

/-- The owner does not change between the look at it and the lock. -/
def deallocateMemory (t : θ) (ptr : ℕ) (crash : Bool) (h : Heap θ) : Option (Heap θ) :=
  let c := fromContents ptr
  if ptr % cacheLineSize ≠ chunkSize then none
  else if !h.isBusy c then if crash then none else some h
  else
    let a := h.link c
    if a = 0 ∨ (h.arenas a).size = 0 then none
    else
      match (h.arenas a).owner with
      | none => (h.adoptArena t a).freeMyOwn t a c
      | some owner => if owner = t then h.freeMyOwn t a c else some (h.queueChunk a c)

end Allocation

end Heap

end Beelzebub.Valloc
