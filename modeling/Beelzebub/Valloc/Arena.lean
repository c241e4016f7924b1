import Beelzebub.Lib.BoundaryTags
import Beelzebub.Lib.Linked
import Beelzebub.Valloc.Heap
import Mathlib.Data.List.Chain

/-!
# Well-formed arenas

The chunks of an arena are given as a list.  `Tagged` says that they cover the arena, with
correct boundary tags, and `Listed` that its list of free chunks agrees with them.
`LastBusyRight` is apart: it is kept less often.
-/

namespace Beelzebub.Valloc

open BoundaryTags

/-- No two adjacent chunks are free. -/
def Apart (free : List Bool) : Prop := free.IsChain fun x y => ¬(x = true ∧ y = true)

theorem apart_split {xs ys : List Bool} {x : Bool} :
    Apart (xs ++ x :: ys) ↔ Apart (xs ++ [x]) ∧ Apart (x :: ys) := List.isChain_split

@[simp] theorem apart_cons_cons {x y : Bool} {ys : List Bool} :
    Apart (x :: y :: ys) ↔ ¬(x = true ∧ y = true) ∧ Apart (y :: ys) := List.isChain_cons_cons

@[simp] theorem apart_singleton (x : Bool) : Apart [x] := List.isChain_singleton x

/-- Behind a chunk that is not free any one may be. -/
theorem Apart.concat {x y : Bool} {xs : List Bool} (h : Apart (xs ++ [x]))
    (hlast : ∀ z ∈ xs.getLast?, z = false) : Apart (xs ++ [y]) := by
  cases xs using List.reverseRecOn with
  | nil => exact apart_singleton y
  | append_singleton xs w =>
      obtain rfl : w = false := hlast w (by simp)
      rw [List.append_assoc, List.singleton_append, apart_split] at h ⊢
      exact ⟨h.1, apart_cons_cons.mpr ⟨by simp, apart_singleton y⟩⟩

namespace Heap

variable {θ : Type} {h h' : Heap θ} {a : ℕ} {xs ys cs : List ℕ} {c : ℕ}

/-- The free ones of the chunks. -/
def freeOnes (h : Heap θ) (cs : List ℕ) : List ℕ := cs.filter h.isFree

/-- The others. -/
def busyOnes (h : Heap θ) (cs : List ℕ) : List ℕ := cs.filter fun c => !h.isFree c

/-- Where an arena may be. -/
structure Sited (a size : ℕ) : Prop where
  pos : 0 < a
  aligned : a % 4096 = 0
  end_lt : a + size < 2 ^ 64

/-- The arena is made of the chunks `cs`, each of which knows its size and the one before it. -/
structure Tagged (h : Heap θ) (a : ℕ) (cs : List ℕ) : Prop where
  site : Sited a (h.arenas a).size
  tags : Tags h.size h.prev 0 (a + 128) cs (a + (h.arenas a).size)
  ne : cs ≠ []
  lines : ∀ c ∈ cs, 64 ∣ h.size c
  free : (h.arenas a).free = ((h.freeOnes cs).map h.size).sum
  apart : Apart (cs.map h.isFree)

/-- The list of free chunks has exactly the free ones of `cs`, in both directions. -/
structure Listed (h : Heap θ) (a : ℕ) (cs : List ℕ) : Prop where
  links : Linked.Seg (fun c => some (h.nextFree c)) (fun c => some (h.link c)) (some 0)
    (h.freeOnes cs) (some 0)
  last : (h.arenas a).lastFree = lastOr 0 (h.freeOnes cs)

/-- A well-formed arena. -/
structure Formed (h : Heap θ) (a : ℕ) (cs : List ℕ) : Prop
    extends h.Tagged a cs, h.Listed a cs

/-- `LastBusy` is the last chunk that is not free. -/
def LastBusyRight (h : Heap θ) (a : ℕ) (cs : List ℕ) : Prop :=
  (h.arenas a).lastBusy = lastOr 0 (h.busyOnes cs)

@[simp] theorem freeOnes_nil (h : Heap θ) : h.freeOnes [] = [] := rfl

@[simp] theorem busyOnes_nil (h : Heap θ) : h.busyOnes [] = [] := rfl

@[simp] theorem freeOnes_append (h : Heap θ) (xs ys : List ℕ) :
    h.freeOnes (xs ++ ys) = h.freeOnes xs ++ h.freeOnes ys := List.filter_append ..

@[simp] theorem busyOnes_append (h : Heap θ) (xs ys : List ℕ) :
    h.busyOnes (xs ++ ys) = h.busyOnes xs ++ h.busyOnes ys := List.filter_append ..

theorem freeOnes_cons_free (hc : h.isFree c) : h.freeOnes (c :: cs) = c :: h.freeOnes cs :=
  List.filter_cons_of_pos hc

theorem freeOnes_cons_busy (hc : h.isFree c = false) : h.freeOnes (c :: cs) = h.freeOnes cs :=
  List.filter_cons_of_neg (by simp [hc])

theorem busyOnes_cons_free (hc : h.isFree c) : h.busyOnes (c :: cs) = h.busyOnes cs :=
  List.filter_cons_of_neg (by simp [hc])

theorem busyOnes_cons_busy (hc : h.isFree c = false) :
    h.busyOnes (c :: cs) = c :: h.busyOnes cs :=
  List.filter_cons_of_pos (by simp [hc])

theorem freeOnes_congr (hf : ∀ c ∈ cs, h'.isFree c = h.isFree c) :
    h'.freeOnes cs = h.freeOnes cs := List.filter_congr hf

theorem busyOnes_congr (hf : ∀ c ∈ cs, h'.isFree c = h.isFree c) :
    h'.busyOnes cs = h.busyOnes cs := List.filter_congr fun c hc => by rw [hf c hc]

theorem mem_freeOnes : c ∈ h.freeOnes cs ↔ c ∈ cs ∧ h.isFree c := List.mem_filter

theorem mem_busyOnes : c ∈ h.busyOnes cs ↔ c ∈ cs ∧ h.isFree c = false := by
  simp [busyOnes, List.mem_filter]

/-- The free chunks and the others have all memory together. -/
theorem sum_freeOnes_add (h : Heap θ) (cs : List ℕ) :
    ((h.freeOnes cs).map h.size).sum + ((h.busyOnes cs).map h.size).sum = (cs.map h.size).sum := by
  induction cs with
  | nil => rfl
  | cons c cs ih =>
      cases hc : h.isFree c with
      | false =>
          rw [freeOnes_cons_busy hc, busyOnes_cons_busy hc]
          simp only [List.map_cons, List.sum_cons]
          omega
      | true =>
          rw [freeOnes_cons_free hc, busyOnes_cons_free hc]
          simp only [List.map_cons, List.sum_cons]
          omega

/-- A chunk is busy, free or neither. -/
theorem isFree_of_isBusy (hc : h.isBusy c) : h.isFree c = false := by
  have hflags : h.flags c = 0 := by simpa [isBusy] using hc
  simp [isFree, hflags]

namespace Tagged

theorem getEnd_eq (ht : h.Tagged a cs) : h.getEnd a = a + (h.arenas a).size :=
  Word.add_of_lt ht.site.end_lt

theorem bounds (ht : h.Tagged a cs) (hc : c ∈ cs) :
    a + 128 ≤ c ∧ 64 ≤ h.size c ∧ c + h.size c ≤ a + (h.arenas a).size := by
  obtain ⟨hlow, hpos, hend⟩ := ht.tags.bounds hc
  exact ⟨hlow, Nat.le_of_dvd hpos (ht.lines c hc), hend⟩

theorem getNext_eq (ht : h.Tagged a cs) (hc : c ∈ cs) : h.getNext c = c + h.size c := by
  have hbounds := ht.bounds hc
  exact Word.add_of_lt (by have hend := ht.site.end_lt; omega)

/-- Chunks start where lines do. -/
theorem dvd (ht : h.Tagged a cs) (hc : c ∈ cs) : 64 ∣ c := by
  have hstart : 64 ∣ a + 128 := by have haligned := ht.site.aligned; omega
  exact ht.tags.dvd hstart ht.lines hc

theorem length_lt (ht : h.Tagged a cs) : cs.length < h.fuel a := by
  have hlen := ht.tags.length_mul_le fun c hc => (ht.bounds hc).2.1
  rw [fuel, cacheLineSize]
  omega

theorem freeOnes_length_lt (ht : h.Tagged a cs) : (h.freeOnes cs).length < h.fuel a :=
  Nat.lt_of_le_of_lt (List.length_filter_le ..) ht.length_lt

theorem freeOnes_sorted (ht : h.Tagged a cs) : (h.freeOnes cs).Pairwise (· < ·) :=
  ht.tags.sorted.filter _

end Tagged

/-- The neighbours of a chunk. -/
theorem Tagged.at (ht : h.Tagged a (xs ++ c :: ys)) :
    Tags h.size h.prev 0 (a + 128) xs c ∧ h.prev c = lastOr 0 xs ∧
      Tags h.size h.prev c (c + h.size c) ys (a + (h.arenas a).size) := by
  obtain ⟨m, hxs, rfl, hprev, -, hys⟩ := tags_append.mp ht.tags
  exact ⟨hxs, hprev, hys⟩

/-- Behind the last chunk is the end of the arena. -/
theorem Tagged.next_nil (ht : h.Tagged a (xs ++ [c])) : h.getNext c = h.getEnd a := by
  have hnext := ht.getNext_eq (c := c) (by simp)
  have hend : c + h.size c = a + (h.arenas a).size := ht.at.2.2
  rw [hnext, ht.getEnd_eq, hend]

theorem Tagged.next_cons {n : ℕ} (ht : h.Tagged a (xs ++ c :: n :: ys)) :
    h.getNext c = n ∧ n < h.getEnd a ∧ h.getNext n ≠ 0 ∧ h.prev n = c := by
  have hc := ht.getNext_eq (c := c) (by simp)
  have hn := ht.getNext_eq (c := n) (by simp)
  have hbounds := ht.bounds (c := n) (by simp)
  have hend := ht.getEnd_eq
  obtain ⟨-, -, hnc, hprev, -⟩ := ht.at
  exact ⟨by omega, by omega, by omega, hprev⟩

/-- The chunks of an arena are cut before and behind some of them. -/
theorem Tagged.cut {ms : List ℕ} (ht : h.Tagged a (xs ++ (ms ++ ys))) :
    ∃ i j, Tags h.size h.prev 0 (a + 128) xs i ∧ Tags h.size h.prev (lastOr 0 xs) i ms j ∧
      Tags h.size h.prev (lastOr (lastOr 0 xs) ms) j ys (a + (h.arenas a).size) := by
  obtain ⟨i, hxs, hrest⟩ := tags_append.mp ht.tags
  obtain ⟨j, hms, hys⟩ := tags_append.mp hrest
  exact ⟨i, j, hxs, hms, hys⟩

/-- The last chunk is the last one that is not free, unless it is free. -/
theorem lastOr_busyOnes (hlast : ∀ x ∈ xs.getLast?, h.isFree x = false) :
    lastOr 0 (h.busyOnes xs) = lastOr 0 xs := by
  cases xs using List.reverseRecOn with
  | nil => rfl
  | append_singleton xs x =>
      rw [busyOnes_append, busyOnes_cons_busy (hlast x (by simp))]
      simp

/-- In front of a free chunk there is none that is free. -/
theorem Tagged.not_free_of_getLast? (ht : h.Tagged a (xs ++ c :: ys)) (hc : h.isFree c) :
    ∀ x ∈ xs.getLast?, h.isFree x = false := by
  intro x hx
  obtain ⟨zs, rfl⟩ := List.getLast?_eq_some_iff.mp (Option.mem_def.mp hx)
  have hapart := ht.apart
  simp only [List.map_append, List.append_assoc, List.map_cons, List.singleton_append] at hapart
  have hxc := (apart_cons_cons.mp (apart_split.mp hapart).2).1
  simpa [hc] using hxc

/-- The neighbours of a free chunk in the list of the free ones. -/
theorem Listed.at (hl : h.Listed a (xs ++ c :: ys)) (hc : h.isFree c) :
    h.link c = lastOr 0 (h.freeOnes xs) ∧ h.nextFree c = (h.freeOnes ys).head?.getD 0 := by
  have hlinks := hl.links
  rw [freeOnes_append, freeOnes_cons_free hc] at hlinks
  obtain ⟨hlink, hnext⟩ := Linked.seg_middle hlinks
  rw [getLast?_or] at hlink
  refine ⟨Option.some.inj hlink, ?_⟩
  cases hys : h.freeOnes ys with
  | nil => rw [hys] at hnext; exact Option.some.inj hnext
  | cons y ys => rw [hys] at hnext; exact Option.some.inj hnext

/-- The links of a free chunk stay in the list, in the order of the addresses. -/
theorem Formed.links_mem (hf : h.Formed a cs) (hc : c ∈ cs) (hfree : h.isFree c) :
    (h.link c ≠ 0 → h.link c ∈ h.freeOnes cs ∧ h.link c < c) ∧
      (h.nextFree c ≠ 0 → h.nextFree c ∈ h.freeOnes cs ∧ c < h.nextFree c) := by
  obtain ⟨xs, ys, rfl⟩ := List.append_of_mem hc
  obtain ⟨hlink, hnext⟩ := hf.toListed.at hfree
  have hsorted := hf.toTagged.freeOnes_sorted
  rw [freeOnes_append, freeOnes_cons_free hfree] at hsorted ⊢
  rw [hlink, hnext]
  constructor
  · intro hne
    have hmem : lastOr 0 (h.freeOnes xs) ∈ h.freeOnes xs :=
      lastOr_mem fun hnil => hne (by rw [hnil]; rfl)
    exact ⟨List.mem_append_left _ hmem,
      (List.pairwise_append.mp hsorted).2.2 _ hmem c List.mem_cons_self⟩
  · intro hne
    cases hys : h.freeOnes ys with
    | nil => rw [hys] at hne; exact absurd rfl hne
    | cons y zs =>
        rw [hys] at hsorted
        have hcons := List.pairwise_cons.mp (List.pairwise_append.mp hsorted).2.1
        exact ⟨by simp, hcons.1 y List.mem_cons_self⟩

theorem Tagged.freeOnes_pos (ht : h.Tagged a cs) (hc : c ∈ h.freeOnes cs) : 0 < c := by
  have hbounds := ht.bounds (mem_freeOnes.mp hc).1
  omega

/-! ## Replacing some of the chunks -/

/-- Nothing is changed outside of an arena, and in it only what is between `i` and `j`, the
chunk in front of `j`, and the links of the free chunks `fs`. -/
structure Local (h h' : Heap θ) (a i j : ℕ) (fs : List ℕ) : Prop where
  size : ∀ x, x < i ∨ j ≤ x → h'.size x = h.size x
  flags : ∀ x, x < i ∨ j ≤ x → h'.flags x = h.flags x
  prev : ∀ x, x < i ∨ j < x ∨ a + (h.arenas a).size ≤ x → h'.prev x = h.prev x
  link : ∀ x, x < i ∨ j ≤ x → x ∉ fs → h'.link x = h.link x
  nextFree : ∀ x, x < i ∨ j ≤ x → x ∉ fs → h'.nextFree x = h.nextFree x
  rest : h'.rest = h.rest
  arenas : ∃ size free lastFree lastBusy, h'.arenas = Function.update h.arenas a
    { h.arenas a with size := size, free := free, lastFree := lastFree, lastBusy := lastBusy }
  firstArena : h'.firstArena = h.firstArena
  gList : h'.gList = h.gList
  live : h'.live = h.live

namespace Local

variable {i j : ℕ} {fs : List ℕ}

theorem isFree (hl : Local h h' a i j fs) {x : ℕ} (hx : x < i ∨ j ≤ x) :
    h'.isFree x = h.isFree x := by rw [Heap.isFree, hl.flags x hx, Heap.isFree]

theorem isBusy (hl : Local h h' a i j fs) {x : ℕ} (hx : x < i ∨ j ≤ x) :
    h'.isBusy x = h.isBusy x := by rw [Heap.isBusy, hl.flags x hx, Heap.isBusy]

end Local

/-- Between `i` and `j` the chunks `ms` are replaced by `ms'`. -/
theorem Tagged.replace {ms ms' : List ℕ} {i j q : ℕ} (ht : h.Tagged a (xs ++ (ms ++ ys)))
    (hl : Local h h' a i j (h.freeOnes (xs ++ (ms ++ ys))))
    (hsite : Sited a (h'.arenas a).size)
    (hxs : Tags h.size h.prev 0 (a + 128) xs i)
    (hms : Tags h'.size h'.prev (lastOr 0 xs) i ms' j)
    (hys : Tags h.size h.prev q j ys (a + (h'.arenas a).size))
    (hhead : j < a + (h'.arenas a).size → h'.prev j = lastOr (lastOr 0 xs) ms')
    (hne : xs ++ (ms' ++ ys) ≠ []) (hlines : ∀ x ∈ ms', 64 ∣ h'.size x)
    (hfree : (h'.arenas a).free + ((h.freeOnes ms).map h.size).sum =
      (h.arenas a).free + ((h'.freeOnes ms').map h'.size).sum)
    (hapart : Apart ((xs ++ (ms' ++ ys)).map h'.isFree)) :
    h'.Tagged a (xs ++ (ms' ++ ys)) := by
  have hxlow : ∀ x ∈ xs, x < i ∨ j ≤ x := fun x hx => by have hb := hxs.bounds hx; omega
  have hyhigh : ∀ y ∈ ys, y < i ∨ j ≤ y := fun y hy => Or.inr (hys.bounds hy).1
  have hsame : ∀ {zs : List ℕ}, (∀ z ∈ zs, z < i ∨ j ≤ z) →
      (h'.freeOnes zs).map h'.size = (h.freeOnes zs).map h.size := fun {zs} hzs => by
    rw [freeOnes_congr fun z hz => hl.isFree (hzs z hz)]
    exact List.map_congr_left fun z hz => hl.size z (hzs z (mem_freeOnes.mp hz).1)
  have hold : ∀ x, (x ∈ xs ∨ x ∈ ys) → 64 ∣ h'.size x := by
    intro x hx
    have hout : x < i ∨ j ≤ x := hx.elim (hxlow x) (hyhigh x)
    have hmem : x ∈ xs ++ (ms ++ ys) := by
      rcases hx with hx | hx <;> simp [hx]
    rw [hl.size x hout]
    exact ht.lines x hmem
  have hcases : ∀ {x}, x ∈ xs ++ (ms' ++ ys) → (x ∈ xs ∨ x ∈ ys) ∨ x ∈ ms' := fun {x} hx => by
    rcases List.mem_append.mp hx with hx | hx
    · exact Or.inl (Or.inl hx)
    · exact (List.mem_append.mp hx).symm.imp_left Or.inr
  refine ⟨hsite, ?_, hne, fun x hx => ?_, ?_, hapart⟩
  · refine hxs.splice hms hys hl.size (fun x hx => hl.prev x ?_) hhead
    omega
  · exact (hcases hx).elim (hold x) (hlines x)
  · have htotal := ht.free
    simp only [freeOnes_append, List.map_append, List.sum_append] at htotal ⊢
    rw [hsame hxlow, hsame hyhigh]
    omega

/-! ## Replacing some of the free chunks -/

/-- The list is not touched. -/
theorem Listed.keep {cs' : List ℕ} (hl : h.Listed a cs) (hfs : h'.freeOnes cs' = h.freeOnes cs)
    (hlink : ∀ x ∈ h.freeOnes cs, h'.link x = h.link x)
    (hnext : ∀ x ∈ h.freeOnes cs, h'.nextFree x = h.nextFree x)
    (hlast : (h'.arenas a).lastFree = (h.arenas a).lastFree) : h'.Listed a cs' := by
  refine ⟨?_, by rw [hlast, hfs, hl.last]⟩
  rw [hfs]
  exact (Linked.seg_congr (fun x hx => congrArg some (hnext x hx))
    fun x hx => congrArg some (hlink x hx)).mpr hl.links

theorem eq_lastOr_of_getLast? {x : ℕ} (hx : xs.getLast? = some x) : x = lastOr 0 xs := by
  have hor := getLast?_or 0 xs
  rw [hx] at hor
  exact Option.some.inj hor

theorem getLast?_of_eq_lastOr {x : ℕ} (hx : x ∈ xs) (hlast : x = lastOr 0 xs) :
    xs.getLast? = some x := by
  obtain ⟨zs, hzs⟩ := exists_concat (List.ne_nil_of_mem hx) 0
  rw [hzs, hlast]
  simp

theorem head?_of_eq_getD {x : ℕ} (hx : x ∈ xs) (hhead : x = xs.head?.getD 0) :
    xs.head? = some x := by
  cases xs with
  | nil => cases hx
  | cons y ys => rw [hhead]; rfl

section Links

variable {cs' fx ms fy : List ℕ} {link nextFree : ℕ → ℕ} {v w : ℕ}

/-- The next one of the last of `fx` is written, and of no other one. -/
theorem patch_last {f : ℕ → ℕ} (hpos : ∀ x ∈ fx, 0 < x) {x : ℕ} (hx : x ∈ fx) :
    patch (lastOr 0 fx != 0) f (lastOr 0 fx) v x =
      if fx.getLast? = some x then v else f x := by
  split
  next h =>
    obtain rfl := eq_lastOr_of_getLast? h
    have hne : (lastOr 0 fx != 0) = true := bne_iff_ne.mpr (Nat.pos_iff_ne_zero.mp (hpos _ hx))
    rw [hne, patch_true, Function.update_self]
  next h => exact patch_of_ne fun hlast => h (getLast?_of_eq_lastOr hx hlast)

/-- The one before the first of `fy` is written, and of no other one. -/
theorem patch_head {f : ℕ → ℕ} (hpos : ∀ x ∈ fy, 0 < x) {x : ℕ} (hx : x ∈ fy) :
    patch (fy.head?.getD 0 != 0) f (fy.head?.getD 0) v x =
      if fy.head? = some x then v else f x := by
  split
  next h =>
    have hne : (x != 0) = true := bne_iff_ne.mpr (Nat.pos_iff_ne_zero.mp (hpos _ hx))
    rw [h, Option.getD_some, hne, patch_true, Function.update_self]
  next h => exact patch_of_ne fun hhead => h (head?_of_eq_getD hx hhead)

/-- Nothing else is written at a chunk. -/
theorem patch_other {f : ℕ → ℕ} {zs : List ℕ} (hpos : ∀ x ∈ zs, 0 < x) (hdisj : zs.Disjoint fy)
    {x : ℕ} (hx : x ∈ zs) :
    patch (lastOr 0 fy != 0) f (lastOr 0 fy) v x = f x ∧
      patch (fy.head?.getD 0 != 0) f (fy.head?.getD 0) v x = f x := by
  have hx0 := Nat.pos_iff_ne_zero.mp (hpos x hx)
  cases fy with
  | nil => exact ⟨patch_of_ne hx0, patch_of_ne hx0⟩
  | cons y ys =>
      refine ⟨patch_of_ne fun h => ?_, patch_of_ne fun h => ?_⟩
      · exact hdisj hx (h ▸ lastOr_mem (List.cons_ne_nil y ys))
      · exact hdisj hx (h ▸ List.mem_cons_self)

/-- The chunk `c` comes to the place of what was between `fx` and `fy`. -/
theorem Listed.place (hl : h.Listed a cs) (hpos : ∀ x ∈ h.freeOnes cs, 0 < x)
    (hnd : (h.freeOnes cs).Nodup) (hfs : h.freeOnes cs = fx ++ (ms ++ fy))
    (hfs' : h'.freeOnes cs' = fx ++ ([c] ++ fy))
    (hlink : h'.link c = lastOr 0 fx) (hnext : h'.nextFree c = fy.head?.getD 0)
    (hlinks : ∀ x, x ∈ fx ∨ x ∈ fy → h'.link x =
      patch (fy.head?.getD 0 != 0) h.link (fy.head?.getD 0) c x)
    (hnexts : ∀ x, x ∈ fx ∨ x ∈ fy → h'.nextFree x =
      patch (lastOr 0 fx != 0) h.nextFree (lastOr 0 fx) c x)
    (hlast : (h'.arenas a).lastFree = if fy.head?.getD 0 ≠ 0 then (h.arenas a).lastFree else c) :
    h'.Listed a cs' := by
  have hlinked := hl.links
  have hend := hl.last
  rw [hfs] at hpos hnd hlinked hend
  have hxpos : ∀ x ∈ fx, 0 < x := fun x hx => hpos x (by simp [hx])
  have hypos : ∀ y ∈ fy, 0 < y := fun y hy => hpos y (by simp [hy])
  have hdisj : fx.Disjoint fy := fun x hx hy =>
    (List.nodup_append.mp hnd).2.2 x hx x (by simp [hy]) rfl
  constructor
  · rw [hfs']
    refine Linked.seg_splice hlinked hnd (List.cons_ne_nil c []) (fun x hx hne => ?_)
      (fun x hx => ?_) (fun x hx => ?_) (fun y hy => ?_) (fun y hy hne => ?_) (fun y hy => ?_) ?_
    · rw [hnexts x (Or.inl hx), patch_last hxpos hx, if_neg hne]
    · have hmem := List.mem_of_getLast? hx
      rw [hnexts x (Or.inl hmem), patch_last hxpos hmem, if_pos (Option.mem_def.mp hx)]
      rfl
    · rw [hlinks x (Or.inl hx), (patch_other hxpos hdisj hx).2]
    · rw [hnexts y (Or.inr hy), (patch_other hypos (fun _ hy hx => hdisj hx hy) hy).1]
    · rw [hlinks y (Or.inr hy), patch_head hypos hy, if_neg hne]
    · have hmem := List.mem_of_mem_head? hy
      rw [hlinks y (Or.inr hmem), patch_head hypos hmem, if_pos (Option.mem_def.mp hy)]
      rfl
    · refine ⟨?_, ?_, trivial⟩
      · rw [getLast?_or]
        exact congrArg some hlink
      · refine (congrArg some hnext).trans ?_
        cases fy <;> rfl
  · rw [hfs', hlast]
    cases fy with
    | nil => simp
    | cons y ys =>
        have hy := Nat.pos_iff_ne_zero.mp (hypos y List.mem_cons_self)
        simp [hy, hend]

/-- The chunk `c` is taken out from between `fx` and `fy`. -/
theorem Listed.remove (hl : h.Listed a cs) (hpos : ∀ x ∈ h.freeOnes cs, 0 < x)
    (hnd : (h.freeOnes cs).Nodup) (hfs : h.freeOnes cs = fx ++ c :: fy)
    (hfs' : h'.freeOnes cs' = fx ++ fy)
    (hlinks : ∀ x, x ∈ fx ∨ x ∈ fy → h'.link x =
      patch (h.nextFree c != 0) h.link (h.nextFree c) (h.link c) x)
    (hnexts : ∀ x, x ∈ fx ∨ x ∈ fy → h'.nextFree x =
      patch (h.link c != 0) h.nextFree (h.link c) (h.nextFree c) x)
    (hlast : (h'.arenas a).lastFree =
      if h.nextFree c ≠ 0 then (h.arenas a).lastFree else h.link c) :
    h'.Listed a cs' := by
  have hlinked := hl.links
  have hend := hl.last
  rw [hfs] at hpos hnd hlinked hend
  have hxpos : ∀ x ∈ fx, 0 < x := fun x hx => hpos x (by simp [hx])
  have hypos : ∀ y ∈ fy, 0 < y := fun y hy => hpos y (by simp [hy])
  have hdisj : fx.Disjoint fy := fun x hx hy =>
    (List.nodup_append.mp hnd).2.2 x hx x (by simp [hy]) rfl
  obtain ⟨hlink, hnext⟩ := Linked.seg_middle hlinked
  have hclink : h.link c = lastOr 0 fx := by
    rw [getLast?_or] at hlink
    exact Option.some.inj hlink
  have hcnext : h.nextFree c = fy.head?.getD 0 := by
    cases fy <;> exact Option.some.inj hnext
  rw [hcnext, hclink] at hlinks hlast
  rw [hclink, hcnext] at hnexts
  constructor
  · rw [hfs']
    refine Linked.seg_remove hlinked hnd (fun x hx hne => ?_) (fun x hx => ?_) (fun x hx => ?_)
      (fun y hy => ?_) (fun y hy hne => ?_) (fun y hy => ?_)
    · rw [hnexts x (Or.inl hx), patch_last hxpos hx, if_neg hne]
    · have hmem := List.mem_of_getLast? hx
      rw [hnexts x (Or.inl hmem), patch_last hxpos hmem, if_pos (Option.mem_def.mp hx), hcnext]
    · rw [hlinks x (Or.inl hx), (patch_other hxpos hdisj hx).2]
    · rw [hnexts y (Or.inr hy), (patch_other hypos (fun _ hy hx => hdisj hx hy) hy).1]
    · rw [hlinks y (Or.inr hy), patch_head hypos hy, if_neg hne]
    · have hmem := List.mem_of_mem_head? hy
      rw [hlinks y (Or.inr hmem), patch_head hypos hmem, if_pos (Option.mem_def.mp hy), hclink]
  · rw [hfs', hlast]
    cases fy with
    | nil => simp
    | cons y ys =>
        have hy := Nat.pos_iff_ne_zero.mp (hypos y List.mem_cons_self)
        simp [hy, hend]

end Links

end Heap

end Beelzebub.Valloc
