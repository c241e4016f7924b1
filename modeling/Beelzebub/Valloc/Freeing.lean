import Beelzebub.Valloc.Arena

/-!
# Freeing of chunks

`FreeThisChunk` merges a chunk with the free ones around it.  There are four cases, and the
boundary tags are right after each of them (`Tagged.mergeBoth`, …).
-/

namespace Beelzebub.Valloc.Heap

open BoundaryTags

variable {θ : Type} {h : Heap θ} {a : ℕ} {xs ys cs : List ℕ} {c p n : ℕ}

/-- A chunk that is not free has memory that is not counted as free. -/
theorem Tagged.free_add_lt (ht : h.Tagged a cs) (hmem : c ∈ cs) (hc : h.isFree c = false) :
    (h.arenas a).free + h.size c < 2 ^ 64 := by
  have hsum := h.sum_freeOnes_add cs
  have htotal := ht.tags.sum
  have hend := ht.site.end_lt
  obtain ⟨us, vs, hbusy⟩ := List.append_of_mem (mem_busyOnes.mpr ⟨hmem, hc⟩)
  rw [hbusy, List.map_append, List.map_cons, List.sum_append, List.sum_cons] at hsum
  rw [ht.free]
  omega

/-! ## Between two free chunks -/

/-- The heap after a chunk between two free ones is freed. -/
def freedBoth (a p c n v : ℕ) (h : Heap θ) : Heap θ :=
  ((h.setFree a (Word.add (h.arenas a).free (h.size c))).mergeBoth a p c n
    (h.getNext n)).replaceLastBusy a c v

theorem freedBoth_arenas (a p c n v : ℕ) (h : Heap θ) :
    (h.freedBoth a p c n v).arenas = Function.update h.arenas a { h.arenas a with
      free := Word.add (h.arenas a).free (h.size c)
      lastFree := if h.nextFree n ≠ 0 then (h.arenas a).lastFree else p
      lastBusy := if (h.arenas a).lastBusy = c then v else (h.arenas a).lastBusy } := by
  simp [freedBoth, replaceLastBusy, mergeBoth, linkPrevFree, linkPrev, setFree, modifyArena,
    setNextFree, setSize]

theorem freedBoth_prev (a p c n v : ℕ) (h : Heap θ) : (h.freedBoth a p c n v).prev =
    patch ((h.getNext n).blt (h.getEnd a)) h.prev (h.getNext n) p := by
  simp [freedBoth, replaceLastBusy, mergeBoth, linkPrevFree, linkPrev, setFree, modifyArena,
    setNextFree, setSize, getEnd]

theorem freedBoth_link (a p c n v : ℕ) (h : Heap θ) : (h.freedBoth a p c n v).link =
    patch (h.nextFree n != 0) h.link (h.nextFree n) p := by
  simp [freedBoth, replaceLastBusy, mergeBoth, linkPrevFree, linkPrev, setFree, modifyArena,
    setNextFree, setSize]

theorem freedBoth_size (a p c n v : ℕ) (h : Heap θ) : (h.freedBoth a p c n v).size =
    Function.update h.size p (Word.add (h.size p) (Word.add (h.size c) (h.size n))) := rfl

theorem freedBoth_nextFree (a p c n v : ℕ) (h : Heap θ) : (h.freedBoth a p c n v).nextFree =
    Function.update h.nextFree p (h.nextFree n) := rfl

section Both

variable (hf : h.Formed a (xs ++ ([p, c, n] ++ ys))) (hp : h.isFree p) (hc : h.isFree c = false)
  (hn : h.isFree n)

include hf hn

theorem Formed.freedBoth_local (v : ℕ) : Local h (h.freedBoth a p c n v) a p (n + h.size n)
    (h.freeOnes (xs ++ ([p, c, n] ++ ys))) := by
  have ht := hf.toTagged
  have hend := ht.getEnd_eq
  have hnn := ht.getNext_eq (c := n) (by simp)
  have hpb := ht.bounds (c := p) (by simp)
  have hlinks := (hf.links_mem (c := n) (by simp) hn).2
  obtain ⟨i, j, hxs, ⟨rfl, -, -, hcp, -, -, hnc, -, -, -⟩, -⟩ := ht.cut
  refine ⟨fun x hx => ?_, fun x _ => rfl, fun x hx => ?_, fun x hx hfs => ?_, fun x hx hfs => ?_,
    rfl, ⟨_, _, _, _, freedBoth_arenas ..⟩, rfl, rfl, rfl⟩
  · rw [freedBoth_size, Function.update_of_ne (by omega)]
  · rw [freedBoth_prev, hnn, hend]
    exact patch_blt fun hlt => by omega
  · rw [freedBoth_link]
    exact patch_bne fun hne heq => hfs (heq ▸ (hlinks hne).1)
  · rw [freedBoth_nextFree, Function.update_of_ne (by omega)]

include hp hc

theorem Formed.freedBoth (v : ℕ) :
    (h.freedBoth a p c n v).Formed a (xs ++ ([p] ++ ys)) := by
  have ht := hf.toTagged
  have hl := hf.freedBoth_local hn v
  have hlt := ht.site.end_lt
  have hfree := ht.free_add_lt (c := c) (by simp) hc
  have hnn := ht.getNext_eq (c := n) (by simp)
  have hend := ht.getEnd_eq
  have hnb := ht.bounds (c := n) (by simp)
  have harena := congrFun (h.freedBoth_arenas a p c n v) a
  rw [Function.update_self] at harena
  obtain ⟨i, j, hxs, ⟨rfl, hprev, hppos, hcp, -, hcpos, hnc, -, hnpos, hj⟩, hys⟩ := ht.cut
  obtain rfl : j = n + h.size n := by rw [tags_nil] at hj; omega
  have hsize : (h.freedBoth a p c n v).size p = h.size p + (h.size c + h.size n) := by
    rw [freedBoth_size, Function.update_self, Word.add_of_lt (a := h.size c), Word.add_of_lt]
    all_goals omega
  have hfo : (h.freedBoth a p c n v).freeOnes = h.freeOnes := rfl
  have hapart := ht.apart
  simp only [List.map_append, List.map_cons, List.cons_append, List.nil_append, hp, hc,
    hn] at hapart
  constructor
  · refine ht.replace hl (by rw [harena]; exact ht.site) hxs ⟨rfl, ?_, by omega, ?_⟩
      (by rw [harena]; exact hys) (fun hjlt => ?_) (by simp) (fun x hx => ?_) ?_ ?_
    · rw [freedBoth_prev, hnn, hend, patch_blt fun _ => by omega, hprev]
    · rw [hsize, tags_nil]
      omega
    · rw [harena] at hjlt
      rw [freedBoth_prev, hnn, hend, patch_blt_self hjlt]
      rfl
    · obtain rfl := List.mem_singleton.mp hx
      rw [hsize]
      exact Nat.dvd_add (ht.lines x (by simp))
        (Nat.dvd_add (ht.lines c (by simp)) (ht.lines n (by simp)))
    · rw [hfo, harena, freeOnes_cons_free hp, freeOnes_cons_free hp, freeOnes_cons_busy hc,
        freeOnes_cons_free hn]
      simp only [freeOnes_nil, List.map_cons, List.map_nil, List.sum_cons, List.sum_nil, hsize,
        Word.add_of_lt hfree]
      omega
    · have hsame : (h.freedBoth a p c n v).isFree = h.isFree := rfl
      rw [hsame]
      simp only [List.map_append, List.map_cons, List.cons_append, List.nil_append, hp]
      obtain ⟨hfront, hbehind⟩ := apart_split.mp hapart
      exact apart_split.mpr ⟨hfront, (apart_cons_cons.mp (apart_cons_cons.mp hbehind).2).2⟩
  · have hfs : h.freeOnes (xs ++ ([p, c, n] ++ ys)) =
        (h.freeOnes xs ++ [p]) ++ n :: h.freeOnes ys := by
      simp [freeOnes_cons_free hp, freeOnes_cons_busy hc, freeOnes_cons_free hn]
    have hsplit : xs ++ ([p, c, n] ++ ys) = (xs ++ [p, c]) ++ n :: ys := by simp
    have hnlink : h.link n = p := by
      have hlist := hf.toListed
      rw [hsplit] at hlist
      rw [(hlist.at hn).1, freeOnes_append, freeOnes_cons_free hp, freeOnes_cons_busy hc]
      simp
    refine hf.toListed.remove (fun x => ht.freeOnes_pos) (ht.freeOnes_sorted.imp Nat.ne_of_lt) hfs
      ?_ (fun x hx => ?_) (fun x hx => ?_) ?_
    · rw [hfo]
      simp [freeOnes_cons_free hp]
    · rw [freedBoth_link, hnlink]
    · rw [freedBoth_nextFree, hnlink]
      have hp0 : (p != 0) = true := bne_iff_ne.mpr (by have hb := hxs.le; omega)
      rw [hp0, patch_true]
    · rw [harena, hnlink]

theorem Formed.freedBoth_lastBusy (hb : h.LastBusyRight a (xs ++ ([p, c, n] ++ ys))) :
    (h.freedBoth a p c n (h.prev p)).LastBusyRight a (xs ++ ([p] ++ ys)) := by
  have ht := hf.toTagged
  have harena := congrFun (h.freedBoth_arenas a p c n (h.prev p)) a
  rw [Function.update_self] at harena
  have hbo : (h.freedBoth a p c n (h.prev p)).busyOnes = h.busyOnes := rfl
  have hprev := ht.at.2.1
  rw [LastBusyRight] at hb ⊢
  rw [harena, hbo]
  simp only [List.cons_append, List.nil_append, busyOnes_append, busyOnes_cons_free hp,
    busyOnes_cons_busy hc, busyOnes_cons_free hn, lastOr_append, lastOr_cons] at hb ⊢
  rw [hb, hprev, lastOr_busyOnes (ht.not_free_of_getLast? hp)]
  refine ite_lastOr fun y hy => ?_
  have hsorted := ht.tags.sorted
  simp only [List.cons_append, List.nil_append, List.pairwise_append, List.pairwise_cons] at hsorted
  exact hsorted.2.1.2.1 y (List.mem_cons_of_mem _ (mem_busyOnes.mp hy).1)

end Both

/-! ## Behind a free chunk -/

/-- The heap after a chunk with a free one only in front of it is freed. -/
def freedPrev (a p c n v : ℕ) (h : Heap θ) : Heap θ :=
  ((h.setFree a (Word.add (h.arenas a).free (h.size c))).mergePrev p c n
    (n.blt (h.getEnd a))).replaceLastBusy a c v

theorem freedPrev_arenas (a p c n v : ℕ) (h : Heap θ) :
    (h.freedPrev a p c n v).arenas = Function.update h.arenas a { h.arenas a with
      free := Word.add (h.arenas a).free (h.size c)
      lastBusy := if (h.arenas a).lastBusy = c then v else (h.arenas a).lastBusy } := by
  simp [freedPrev, replaceLastBusy, mergePrev, setFree, modifyArena, setSize]

theorem freedPrev_prev (a p c n v : ℕ) (h : Heap θ) :
    (h.freedPrev a p c n v).prev = patch (n.blt (h.getEnd a)) h.prev n p := rfl

theorem freedPrev_size (a p c n v : ℕ) (h : Heap θ) : (h.freedPrev a p c n v).size =
    Function.update h.size p (Word.add (h.size p) (h.size c)) := rfl

section Prev

variable (hf : h.Formed a (xs ++ ([p, c] ++ ys))) (hp : h.isFree p) (hc : h.isFree c = false)
  (hn : h.getNext c = n)

include hf hn

theorem Formed.freedPrev_local (v : ℕ) : Local h (h.freedPrev a p c n v) a p n
    (h.freeOnes (xs ++ ([p, c] ++ ys))) := by
  have ht := hf.toTagged
  have hnc := ht.getNext_eq (c := c) (by simp)
  obtain ⟨i, j, hxs, ⟨rfl, -, hppos, hcp, -, -, -⟩, -⟩ := ht.cut
  refine ⟨fun x hx => ?_, fun x _ => rfl, fun x hx => ?_, fun x _ _ => rfl, fun x _ _ => rfl,
    rfl, ⟨_, _, _, _, freedPrev_arenas ..⟩, rfl, rfl, rfl⟩
  · rw [freedPrev_size, Function.update_of_ne (by omega)]
  · rw [freedPrev_prev, ht.getEnd_eq]
    exact patch_blt fun hlt => by omega

include hp hc

theorem Formed.freedPrev (hnot : ∀ y ∈ ys.head?, h.isFree y = false) (v : ℕ) :
    (h.freedPrev a p c n v).Formed a (xs ++ ([p] ++ ys)) := by
  have ht := hf.toTagged
  have hl := hf.freedPrev_local hn v
  have hlt := ht.site.end_lt
  have hfree := ht.free_add_lt (c := c) (by simp) hc
  have hnc := ht.getNext_eq (c := c) (by simp)
  have hcb := ht.bounds (c := c) (by simp)
  have hend := ht.getEnd_eq
  have harena := congrFun (h.freedPrev_arenas a p c n v) a
  rw [Function.update_self] at harena
  obtain ⟨i, j, hxs, ⟨rfl, hprev, hppos, hcp, -, hcpos, hj⟩, hys⟩ := ht.cut
  obtain rfl : j = n := by rw [tags_nil] at hj; omega
  have hsize : (h.freedPrev a p c j v).size p = h.size p + h.size c := by
    rw [freedPrev_size, Function.update_self, Word.add_of_lt]
    omega
  have hfo : (h.freedPrev a p c j v).freeOnes = h.freeOnes := rfl
  have hapart := ht.apart
  simp only [List.map_append, List.map_cons, List.cons_append, List.nil_append, hp, hc] at hapart
  constructor
  · refine ht.replace hl (by rw [harena]; exact ht.site) hxs ⟨rfl, ?_, by omega, ?_⟩
      (by rw [harena]; exact hys) (fun hjlt => ?_) (by simp) (fun x hx => ?_) ?_ ?_
    · rw [freedPrev_prev, patch_blt fun _ => by omega, hprev]
    · rw [hsize, tags_nil]
      omega
    · rw [harena] at hjlt
      rw [freedPrev_prev, hend, patch_blt_self hjlt]
      rfl
    · obtain rfl := List.mem_singleton.mp hx
      rw [hsize]
      exact Nat.dvd_add (ht.lines x (by simp)) (ht.lines c (by simp))
    · rw [hfo, harena, freeOnes_cons_free hp, freeOnes_cons_free hp, freeOnes_cons_busy hc]
      simp only [freeOnes_nil, List.map_cons, List.map_nil, List.sum_cons, List.sum_nil, hsize,
        Word.add_of_lt hfree]
      omega
    · have hsame : (h.freedPrev a p c j v).isFree = h.isFree := rfl
      rw [hsame]
      simp only [List.map_append, List.map_cons, List.cons_append, List.nil_append, hp]
      obtain ⟨hfront, hbehind⟩ := apart_split.mp hapart
      refine apart_split.mpr ⟨hfront, ?_⟩
      cases ys with
      | nil => exact apart_singleton true
      | cons y ys =>
          have hy := hnot y rfl
          rw [List.map_cons, hy]
          rw [List.map_cons, hy] at hbehind
          exact apart_cons_cons.mpr ⟨by simp, (apart_cons_cons.mp (apart_cons_cons.mp hbehind).2).2⟩
  · refine hf.toListed.keep ?_ (fun x _ => rfl) (fun x _ => rfl) (by rw [harena])
    rw [hfo]
    simp [freeOnes_cons_free hp, freeOnes_cons_busy hc]

omit hn in
theorem Formed.freedPrev_lastBusy (hb : h.LastBusyRight a (xs ++ ([p, c] ++ ys))) :
    (h.freedPrev a p c n (h.prev p)).LastBusyRight a (xs ++ ([p] ++ ys)) := by
  have ht := hf.toTagged
  have harena := congrFun (h.freedPrev_arenas a p c n (h.prev p)) a
  rw [Function.update_self] at harena
  have hbo : (h.freedPrev a p c n (h.prev p)).busyOnes = h.busyOnes := rfl
  have hprev := ht.at.2.1
  rw [LastBusyRight] at hb ⊢
  rw [harena, hbo]
  simp only [List.cons_append, List.nil_append, busyOnes_append, busyOnes_cons_free hp,
    busyOnes_cons_busy hc, lastOr_append, lastOr_cons] at hb ⊢
  rw [hb, hprev, lastOr_busyOnes (ht.not_free_of_getLast? hp)]
  refine ite_lastOr fun y hy => ?_
  have hsorted := ht.tags.sorted
  simp only [List.cons_append, List.nil_append, List.pairwise_append, List.pairwise_cons] at hsorted
  exact hsorted.2.1.2.1 y (mem_busyOnes.mp hy).1

end Prev

/-! ## In front of a free chunk -/

/-- The heap after a chunk with a free one only behind it is freed. -/
def freedNext (a c n : ℕ) (h : Heap θ) : Heap θ :=
  ((h.setFree a (Word.add (h.arenas a).free (h.size c))).setFlags c 1).mergeNext a c n (h.getNext n)

theorem freedNext_arenas (a c n : ℕ) (h : Heap θ) (hnn : h.getNext n ≠ c) (hlink : h.link n ≠ n) :
    (h.freedNext a c n).arenas = Function.update h.arenas a { h.arenas a with
      free := Word.add (h.arenas a).free (h.size c)
      lastFree := if h.nextFree n ≠ 0 then (h.arenas a).lastFree else c
      lastBusy := if (h.arenas a).lastBusy = c then h.prev c else (h.arenas a).lastBusy } := by
  simp [freedNext, replaceLastBusy, mergeNext, linkPrevFree, linkPrev, setFree, modifyArena,
    setNextFree, setSize, setLink, linkNextFree, setFlags, patch_of_ne hnn.symm,
    patch_of_ne hlink.symm]

theorem freedNext_prev (a c n : ℕ) (h : Heap θ) : (h.freedNext a c n).prev =
    patch ((h.getNext n).blt (h.getEnd a)) h.prev (h.getNext n) c := by
  simp [freedNext, replaceLastBusy, mergeNext, linkPrevFree, linkPrev, setFree, modifyArena,
    setNextFree, setSize, setLink, linkNextFree, setFlags, getEnd]

theorem freedNext_size (a c n : ℕ) (h : Heap θ) : (h.freedNext a c n).size =
    Function.update h.size c (Word.add (h.size c) (h.size n)) := rfl

theorem freedNext_flags (a c n : ℕ) (h : Heap θ) :
    (h.freedNext a c n).flags = Function.update h.flags c 1 := rfl

theorem freedNext_isFree (a c n : ℕ) (h : Heap θ) : (h.freedNext a c n).isFree c := by
  rw [isFree, freedNext_flags, Function.update_self]
  rfl

theorem freedNext_link (a c n : ℕ) (h : Heap θ) (hlink : h.link n ≠ n) :
    (h.freedNext a c n).link =
      patch (h.nextFree n != 0) (Function.update h.link c (h.link n)) (h.nextFree n) c := by
  simp [freedNext, replaceLastBusy, mergeNext, linkPrevFree, linkPrev, setFree, modifyArena,
    setNextFree, setSize, setLink, linkNextFree, setFlags, patch_of_ne hlink.symm]

theorem freedNext_nextFree (a c n : ℕ) (h : Heap θ) (hlink : h.link n ≠ n) :
    (h.freedNext a c n).nextFree =
      Function.update (patch (h.link n != 0) h.nextFree (h.link n) c) c (h.nextFree n) := by
  simp [freedNext, replaceLastBusy, mergeNext, linkPrevFree, linkPrev, setFree, modifyArena,
    setNextFree, setSize, setLink, linkNextFree, setFlags, patch_of_ne hlink.symm]

section Next

variable (hf : h.Formed a (xs ++ ([c, n] ++ ys))) (hp : ∀ x ∈ xs.getLast?, h.isFree x = false)
  (hc : h.isFree c = false) (hn : h.isFree n)

include hf hn

theorem Formed.link_ne : h.link n ≠ n := by
  intro heq
  have hlink := (hf.links_mem (c := n) (by simp) hn).1
  have hn0 := hf.toTagged.bounds (c := n) (by simp)
  have hlt := (hlink (by omega)).2
  omega

theorem Formed.freedNext_local : Local h (h.freedNext a c n) a c (n + h.size n)
    (h.freeOnes (xs ++ ([c, n] ++ ys))) := by
  have ht := hf.toTagged
  have hne := hf.link_ne hn
  have hnn := ht.getNext_eq (c := n) (by simp)
  have hlinks := hf.links_mem (c := n) (by simp) hn
  obtain ⟨i, j, hxs, ⟨rfl, -, hcpos, hnc, -, -, -⟩, -⟩ := ht.cut
  have hnnc : h.getNext n ≠ c := by omega
  refine ⟨fun x hx => ?_, fun x hx => ?_, fun x hx => ?_, fun x hx hfs => ?_, fun x hx hfs => ?_,
    rfl, ⟨_, _, _, _, h.freedNext_arenas a c n hnnc hne⟩, rfl, rfl, rfl⟩
  · rw [freedNext_size, Function.update_of_ne (by omega)]
  · rw [freedNext_flags, Function.update_of_ne (by omega)]
  · rw [freedNext_prev, ht.getEnd_eq, hnn]
    exact patch_blt fun hlt => by omega
  · rw [freedNext_link _ _ _ _ hne]
    have hxn : h.nextFree n ≠ 0 → x ≠ h.nextFree n := fun h0 heq => hfs (heq ▸ (hlinks.2 h0).1)
    rw [patch_bne hxn, Function.update_of_ne (by omega)]
  · rw [freedNext_nextFree _ _ _ _ hne, Function.update_of_ne (by omega)]
    exact patch_bne fun h0 heq => hfs (heq ▸ (hlinks.1 h0).1)

include hp hc

theorem Formed.freedNext : (h.freedNext a c n).Formed a (xs ++ ([c] ++ ys)) := by
  have ht := hf.toTagged
  have hl := hf.freedNext_local hn
  have hne := hf.link_ne hn
  have hlinks := hf.links_mem (c := n) (by simp) hn
  have hlt := ht.site.end_lt
  have hfree := ht.free_add_lt (c := c) (by simp) hc
  have hnn := ht.getNext_eq (c := n) (by simp)
  have hnb := ht.bounds (c := n) (by simp)
  have hend := ht.getEnd_eq
  obtain ⟨i, j, hxs, ⟨rfl, hprev, hcpos, hnc, -, hnpos, hj⟩, hys⟩ := ht.cut
  obtain rfl : j = n + h.size n := by rw [tags_nil] at hj; omega
  have harena := congrFun (h.freedNext_arenas a c n (by omega) hne) a
  rw [Function.update_self] at harena
  have hsize : (h.freedNext a c n).size c = h.size c + h.size n := by
    rw [freedNext_size, Function.update_self, Word.add_of_lt]
    omega
  have hself := freedNext_isFree a c n h
  have hlow : ∀ x ∈ xs, x < c := fun x hx => by have hb := hxs.bounds hx; omega
  have hhigh : ∀ y ∈ ys, n + h.size n ≤ y := fun y hy => (hys.bounds hy).1
  have hxf : ∀ x ∈ xs, (h.freedNext a c n).isFree x = h.isFree x :=
    fun x hx => hl.isFree (Or.inl (hlow x hx))
  have hyf : ∀ y ∈ ys, (h.freedNext a c n).isFree y = h.isFree y :=
    fun y hy => hl.isFree (Or.inr (hhigh y hy))
  have hapart := ht.apart
  simp only [List.map_append, List.map_cons, List.cons_append, List.nil_append, hc, hn] at hapart
  constructor
  · refine ht.replace hl (by rw [harena]; exact ht.site) hxs ⟨rfl, ?_, by omega, ?_⟩
      (by rw [harena]; exact hys) (fun hjlt => ?_) (by simp) (fun x hx => ?_) ?_ ?_
    · rw [freedNext_prev, hnn, hend, patch_blt fun _ => by omega, hprev]
    · rw [hsize, tags_nil]
      omega
    · rw [harena] at hjlt
      rw [freedNext_prev, hnn, hend, patch_blt_self hjlt]
      rfl
    · obtain rfl := List.mem_singleton.mp hx
      rw [hsize]
      exact Nat.dvd_add (ht.lines x (by simp)) (ht.lines n (by simp))
    · rw [harena, freeOnes_cons_free hself, freeOnes_cons_busy hc, freeOnes_cons_free hn]
      simp only [freeOnes_nil, List.map_cons, List.map_nil, List.sum_cons, List.sum_nil, hsize,
        Word.add_of_lt hfree]
      omega
    · simp only [List.map_append, List.map_cons, List.cons_append, List.nil_append, hself]
      rw [List.map_congr_left hxf, List.map_congr_left hyf]
      obtain ⟨hfront, hbehind⟩ := apart_split.mp hapart
      refine apart_split.mpr ⟨hfront.concat fun z hz => ?_, (apart_cons_cons.mp hbehind).2⟩
      rw [List.getLast?_map] at hz
      obtain ⟨x, hx, rfl⟩ := Option.map_eq_some_iff.mp hz
      exact hp x hx
  · have hfs : h.freeOnes (xs ++ ([c, n] ++ ys)) =
        h.freeOnes xs ++ ([n] ++ h.freeOnes ys) := by
      simp [freeOnes_cons_busy hc, freeOnes_cons_free hn]
    have hsplit : xs ++ ([c, n] ++ ys) = (xs ++ [c]) ++ n :: ys := by simp
    have hlist := hf.toListed
    rw [hsplit] at hlist
    obtain ⟨hnlink, hnnext⟩ := hlist.at hn
    rw [freeOnes_append, freeOnes_cons_busy hc, freeOnes_nil, List.append_nil] at hnlink
    have hout : ∀ x, x ∈ h.freeOnes xs ∨ x ∈ h.freeOnes ys → x ≠ c := by
      rintro x (hx | hx)
      · exact Nat.ne_of_lt (hlow x (mem_freeOnes.mp hx).1)
      · have hb := hhigh x (mem_freeOnes.mp hx).1
        omega
    refine hf.toListed.place (c := c) (fun x => ht.freeOnes_pos)
      (ht.freeOnes_sorted.imp Nat.ne_of_lt) hfs ?_ ?_ ?_ (fun x hx => ?_) (fun x hx => ?_) ?_
    · rw [freeOnes_append, freeOnes_append, freeOnes_cons_free hself, freeOnes_nil,
        freeOnes_congr hxf, freeOnes_congr hyf]
    · have hapart : h.nextFree n ≠ 0 → c ≠ h.nextFree n := fun h0 => by
        have hb := hlinks.2 h0
        omega
      rw [freedNext_link _ _ _ _ hne, ← hnlink, patch_bne hapart, Function.update_self]
    · rw [freedNext_nextFree _ _ _ _ hne, Function.update_self, hnnext]
    · rw [freedNext_link _ _ _ _ hne, ← hnnext]
      exact patch_congr (Function.update_of_ne (hout x hx) ..)
    · rw [freedNext_nextFree _ _ _ _ hne, ← hnlink, Function.update_of_ne (hout x hx)]
    · rw [harena, hnnext]

theorem Formed.freedNext_lastBusy (hb : h.LastBusyRight a (xs ++ ([c, n] ++ ys))) :
    (h.freedNext a c n).LastBusyRight a (xs ++ ([c] ++ ys)) := by
  have ht := hf.toTagged
  have hl := hf.freedNext_local hn
  have hnn := ht.getNext_eq (c := n) (by simp)
  obtain ⟨i, j, hxs, ⟨rfl, hprev, hcpos, hnc, -, hnpos, hj⟩, hys⟩ := ht.cut
  obtain rfl : j = n + h.size n := by rw [tags_nil] at hj; omega
  have harena := congrFun (h.freedNext_arenas a c n (by omega) (hf.link_ne hn)) a
  rw [Function.update_self] at harena
  have hself := freedNext_isFree a c n h
  have hxb : (h.freedNext a c n).busyOnes xs = h.busyOnes xs := busyOnes_congr fun x hx => by
    have hx := hxs.bounds hx
    exact hl.isFree (by omega)
  have hyb : (h.freedNext a c n).busyOnes ys = h.busyOnes ys := busyOnes_congr fun y hy => by
    have hy := hys.bounds hy
    exact hl.isFree (by omega)
  rw [LastBusyRight] at hb ⊢
  rw [harena]
  simp only [List.cons_append, List.nil_append, busyOnes_append, busyOnes_cons_free hself,
    busyOnes_cons_busy hc, busyOnes_cons_free hn, lastOr_append, lastOr_cons, hxb, hyb] at hb ⊢
  rw [hb, hprev, lastOr_busyOnes hp]
  refine ite_lastOr fun y hy => ?_
  have hy := hys.bounds (mem_busyOnes.mp hy).1
  omega

end Next

/-! ## With no free chunk around -/

/-- The heap after the chunk `c` is put in the list of free chunks, behind `l` and in front of `n`.
Behind all others it keeps what is at its start. -/
def introduced (a c l n : ℕ) (h : Heap θ) : Heap θ :=
  { h with
    link := Function.update (patch (n != 0) h.link n c) c l
    nextFree := Function.update (patch (l != 0) h.nextFree l c) c
      (if n = 0 ∧ l ≠ 0 then h.nextFree c else n)
    arenas := Function.update h.arenas a
      { h.arenas a with lastFree := if n ≠ 0 then (h.arenas a).lastFree else c } }

section Introduce

variable {fx fy : List ℕ}

/-- The search down the list ends at the first free chunk behind `c`. -/
theorem closestFree_eq {y m : ℕ}
    (hlinks : Linked.Seg (fun c => some (h.nextFree c)) (fun c => some (h.link c)) (some 0)
      (fx ++ y :: fy) (some m))
    (hx : ∀ x ∈ fx, x < c) (hy : ∀ z ∈ y :: fy, c < z) {fuel : ℕ} (hfuel : fy.length < fuel) :
    h.closestFree c fuel (lastOr y fy) = some y := by
  induction fy using List.reverseRecOn generalizing fuel m with
  | nil =>
      obtain ⟨k, rfl⟩ := Nat.exists_eq_succ_of_ne_zero (Nat.ne_of_gt hfuel)
      obtain ⟨hlink, -⟩ := Linked.seg_middle hlinks
      rw [getLast?_or] at hlink
      have hle : ¬h.link y > c := by
        rw [Option.some.inj hlink]
        cases fx with
        | nil => simp
        | cons x xs => exact Nat.not_lt.mpr (Nat.le_of_lt (hx _ (lastOr_mem (List.cons_ne_nil x xs))))
      rw [lastOr_nil, closestFree, if_neg hle]
  | append_singleton zs z ih =>
      obtain ⟨k, rfl⟩ := Nat.exists_eq_succ_of_ne_zero (Nat.ne_of_gt (Nat.zero_lt_of_lt hfuel))
      rw [← List.cons_append, ← List.append_assoc] at hlinks
      obtain ⟨hlink, -⟩ := Linked.seg_middle hlinks
      rw [getLast?_or, lastOr_append, lastOr_cons] at hlink
      have hgt : h.link z > c := by
        rw [Option.some.inj hlink]
        cases zs with
        | nil => exact hy y List.mem_cons_self
        | cons w ws =>
            refine hy _ (List.mem_cons_of_mem _ (List.mem_append_left _ ?_))
            exact lastOr_mem (List.cons_ne_nil w ws)
      rw [lastOr_append, lastOr_cons, lastOr_nil, closestFree, if_pos hgt, Option.some.inj hlink]
      refine ih (Linked.seg_append.mp hlinks).1 (fun w hw => hy w ?_) ?_
      · rw [← List.cons_append]
        exact List.mem_append_left _ hw
      · rw [List.length_append, List.length_singleton] at hfuel
        omega

theorem introduceFreeChunk_eq
    (hlinks : Linked.Seg (fun c => some (h.nextFree c)) (fun c => some (h.link c)) (some 0)
      (fx ++ fy) (some 0))
    (hlast : (h.arenas a).lastFree = lastOr 0 (fx ++ fy)) (hpos : ∀ x ∈ fx ++ fy, 0 < x)
    (hx : ∀ x ∈ fx, x < c) (hy : ∀ y ∈ fy, c < y) (hfuel : (fx ++ fy).length < h.fuel a) :
    h.introduceFreeChunk a c = some (h.introduced a c (lastOr 0 fx) (fy.head?.getD 0)) := by
  cases fy with
  | nil =>
      rw [List.append_nil] at hlast hpos
      cases fx with
      | nil =>
          -- there is no free chunk
          have hzero : (h.arenas a).lastFree = 0 := hlast
          rw [introduceFreeChunk, if_pos hzero]
          simp [introduced, setLink, setNextFree, setLastFree, modifyArena]
      | cons x xs =>
          -- all are in front of it
          have hmem : lastOr x xs ∈ x :: xs := lastOr_mem (p := 0) (List.cons_ne_nil x xs)
          have hlt := hx _ hmem
          have hne := Nat.pos_iff_ne_zero.mp (hpos _ hmem)
          rw [lastOr_cons] at hlast
          rw [introduceFreeChunk, hlast, if_neg hne, if_neg (Nat.lt_asymm hlt)]
          rw [lastOr_cons]
          have hkeep : Function.update (Function.update h.nextFree (lastOr x xs) c) c
              (h.nextFree c) = Function.update h.nextFree (lastOr x xs) c := by
            rw [Function.update_eq_iff]
            exact ⟨(Function.update_of_ne (Nat.ne_of_gt hlt) ..).symm, fun _ _ => rfl⟩
          have hbne : (lastOr x xs != 0) = true := bne_iff_ne.mpr hne
          simp [introduced, setLink, setNextFree, setLastFree, modifyArena, hne, hbne, hkeep]
  | cons y ys =>
      have hmem : lastOr y ys ∈ y :: ys := lastOr_mem (p := 0) (List.cons_ne_nil y ys)
      have hgt := hy _ hmem
      have hy0 := Nat.pos_iff_ne_zero.mp (hpos y (by simp))
      have hyc := hy y List.mem_cons_self
      obtain ⟨hlink, -⟩ := Linked.seg_middle hlinks
      rw [getLast?_or] at hlink
      rw [lastOr_append, lastOr_cons] at hlast
      have hne : lastOr y ys ≠ 0 := by omega
      have hlen : ys.length < h.fuel a := by
        simp only [List.length_append, List.length_cons] at hfuel
        omega
      have hclosest := h.closestFree_eq hlinks hx hy hlen
      rw [introduceFreeChunk, hlast, if_neg hne, if_pos hgt, hclosest]
      have hcomm : Function.update (Function.update h.link c (lastOr 0 fx)) y c =
          Function.update (Function.update h.link y c) c (lastOr 0 fx) :=
        Function.update_comm (Nat.ne_of_lt hyc) ..
      have hbne : (y != 0) = true := bne_iff_ne.mpr hy0
      simp [introduced, setLink, setNextFree, linkNextFree, Option.some.inj hlink, hy0, hbne, hcomm]

end Introduce

/-- The heap after a chunk with no free one around it is freed. -/
def freedAlone (a c l n : ℕ) (h : Heap θ) : Heap θ :=
  ((h.setFree a (Word.add (h.arenas a).free (h.size c))).setFlags c 1).introduced a c l n

theorem freedAlone_arenas (a c l n : ℕ) (h : Heap θ) :
    (h.freedAlone a c l n).arenas = Function.update h.arenas a { h.arenas a with
      free := Word.add (h.arenas a).free (h.size c)
      lastFree := if n ≠ 0 then (h.arenas a).lastFree else c } := by
  simp [freedAlone, introduced, setFree, modifyArena, setFlags]

theorem freedAlone_flags (a c l n : ℕ) (h : Heap θ) :
    (h.freedAlone a c l n).flags = Function.update h.flags c 1 := rfl

theorem freedAlone_isFree (a c l n : ℕ) (h : Heap θ) : (h.freedAlone a c l n).isFree c := by
  rw [isFree, freedAlone_flags, Function.update_self]
  rfl

theorem freedAlone_link (a c l n : ℕ) (h : Heap θ) : (h.freedAlone a c l n).link =
    Function.update (patch (n != 0) h.link n c) c l := rfl

theorem freedAlone_nextFree (a c l n : ℕ) (h : Heap θ) : (h.freedAlone a c l n).nextFree =
    Function.update (patch (l != 0) h.nextFree l c) c (if n = 0 ∧ l ≠ 0 then h.nextFree c else n) :=
  rfl

/-- The free chunk in front of what is behind `xs`, and the one behind what is in front of `ys`. -/
def prevFreeOf (h : Heap θ) (xs : List ℕ) : ℕ := lastOr 0 (h.freeOnes xs)

def nextFreeOf (h : Heap θ) (ys : List ℕ) : ℕ := (h.freeOnes ys).head?.getD 0

section Alone

variable (hf : h.Formed a (xs ++ ([c] ++ ys))) (hp : ∀ x ∈ xs.getLast?, h.isFree x = false)
  (hc : h.isFree c = false) (hn : ∀ y ∈ ys.head?, h.isFree y = false)

theorem prevFreeOf_mem (hne : h.prevFreeOf xs ≠ 0) : h.prevFreeOf xs ∈ h.freeOnes xs :=
  lastOr_mem fun hnil => hne (by rw [prevFreeOf, hnil]; rfl)

theorem nextFreeOf_mem (hne : h.nextFreeOf ys ≠ 0) : h.nextFreeOf ys ∈ h.freeOnes ys := by
  rw [nextFreeOf] at hne ⊢
  cases hys : h.freeOnes ys with
  | nil => rw [hys] at hne; exact absurd rfl hne
  | cons y zs => exact List.mem_cons_self

include hf

theorem Formed.freedAlone_local :
    Local h (h.freedAlone a c (h.prevFreeOf xs) (h.nextFreeOf ys)) a c (c + h.size c)
      (h.freeOnes (xs ++ ([c] ++ ys))) := by
  have ht := hf.toTagged
  obtain ⟨i, j, hxs, ⟨rfl, -, hcpos, -⟩, -⟩ := ht.cut
  have hfs : h.freeOnes (xs ++ ([c] ++ ys)) =
      h.freeOnes xs ++ (h.freeOnes [c] ++ h.freeOnes ys) := by simp only [freeOnes_append]
  refine ⟨fun x _ => rfl, fun x hx => ?_, fun x _ => rfl, fun x hx hout => ?_, fun x hx hout => ?_,
    rfl, ⟨_, _, _, _, freedAlone_arenas ..⟩, rfl, rfl, rfl⟩
  · rw [freedAlone_flags, Function.update_of_ne (by omega)]
  · rw [freedAlone_link, Function.update_of_ne (by omega)]
    refine patch_bne fun hne heq => hout ?_
    rw [hfs, heq]
    exact List.mem_append_right _ (List.mem_append_right _ (nextFreeOf_mem hne))
  · rw [freedAlone_nextFree, Function.update_of_ne (by omega)]
    refine patch_bne fun hne heq => hout ?_
    rw [hfs, heq]
    exact List.mem_append_left _ (prevFreeOf_mem hne)

include hp hc hn

theorem Formed.freedAlone_tagged :
    (h.freedAlone a c (h.prevFreeOf xs) (h.nextFreeOf ys)).Tagged a (xs ++ ([c] ++ ys)) := by
  have ht := hf.toTagged
  have hl := hf.freedAlone_local
  have hfree := ht.free_add_lt (c := c) (by simp) hc
  obtain ⟨i, j, hxs, ⟨rfl, hprev, hcpos, hj⟩, hys⟩ := ht.cut
  obtain rfl : j = c + h.size c := hj.symm
  have harena := congrFun (h.freedAlone_arenas a c (h.prevFreeOf xs) (h.nextFreeOf ys)) a
  rw [Function.update_self] at harena
  have hself := freedAlone_isFree a c (h.prevFreeOf xs) (h.nextFreeOf ys) h
  have hxf : ∀ x ∈ xs, (h.freedAlone a c (h.prevFreeOf xs) (h.nextFreeOf ys)).isFree x =
      h.isFree x := fun x hx => by
    have hb := hxs.bounds hx
    exact hl.isFree (by omega)
  have hyf : ∀ y ∈ ys, (h.freedAlone a c (h.prevFreeOf xs) (h.nextFreeOf ys)).isFree y =
      h.isFree y := fun y hy => hl.isFree (Or.inr (hys.bounds hy).1)
  have hapart := ht.apart
  simp only [List.map_append, List.map_cons, List.cons_append, List.nil_append, hc] at hapart
  refine ht.replace hl (by rw [harena]; exact ht.site) hxs ⟨rfl, hprev, hcpos, rfl⟩
    (by rw [harena]; exact hys) (fun hjlt => ?_) (by simp) (fun x hx => ?_) ?_ ?_
  · rw [harena] at hjlt
    cases ys with
    | nil => exact absurd hys (Nat.ne_of_lt hjlt)
    | cons y ys =>
        obtain ⟨rfl, hprevy, -⟩ := hys
        exact hprevy
  · obtain rfl := List.mem_singleton.mp hx
    exact ht.lines x (by simp)
  · rw [harena, freeOnes_cons_free hself, freeOnes_cons_busy hc]
    have hsize : (h.freedAlone a c (h.prevFreeOf xs) (h.nextFreeOf ys)).size c = h.size c := rfl
    simp only [freeOnes_nil, List.map_cons, List.map_nil, List.sum_cons, List.sum_nil, hsize,
      Word.add_of_lt hfree]
    omega
  · simp only [List.map_append, List.map_cons, List.cons_append, List.nil_append, hself]
    rw [List.map_congr_left hxf, List.map_congr_left hyf]
    obtain ⟨hfront, hbehind⟩ := apart_split.mp hapart
    refine apart_split.mpr ⟨hfront.concat fun z hz => ?_, ?_⟩
    · rw [List.getLast?_map] at hz
      obtain ⟨x, hx, rfl⟩ := Option.map_eq_some_iff.mp hz
      exact hp x hx
    · cases ys with
      | nil => exact apart_singleton true
      | cons y ys =>
          rw [List.map_cons, hn y rfl] at hbehind ⊢
          exact apart_cons_cons.mpr ⟨by simp, (apart_cons_cons.mp hbehind).2⟩

/-- The chunk is in the list, and nothing behind the last one, unless something is at its start. -/
theorem Formed.freedAlone (hclean : h.nextFreeOf ys = 0 → h.prevFreeOf xs ≠ 0 → h.nextFree c = 0) :
    (h.freedAlone a c (h.prevFreeOf xs) (h.nextFreeOf ys)).Formed a (xs ++ ([c] ++ ys)) := by
  have ht := hf.toTagged
  have hl := hf.freedAlone_local
  obtain ⟨i, j, hxs, ⟨rfl, hprev, hcpos, hj⟩, hys⟩ := ht.cut
  obtain rfl : j = c + h.size c := hj.symm
  have harena := congrFun (h.freedAlone_arenas a c (h.prevFreeOf xs) (h.nextFreeOf ys)) a
  rw [Function.update_self] at harena
  have hself := freedAlone_isFree a c (h.prevFreeOf xs) (h.nextFreeOf ys) h
  have hlow : ∀ x ∈ xs, x < c := fun x hx => by have hb := hxs.bounds hx; omega
  have hhigh : ∀ y ∈ ys, c + h.size c ≤ y := fun y hy => (hys.bounds hy).1
  have hfs : h.freeOnes (xs ++ ([c] ++ ys)) = h.freeOnes xs ++ ([] ++ h.freeOnes ys) := by
    simp [freeOnes_cons_busy hc]
  have hout : ∀ x, x ∈ h.freeOnes xs ∨ x ∈ h.freeOnes ys → x ≠ c := by
    rintro x (hx | hx)
    · exact Nat.ne_of_lt (hlow x (mem_freeOnes.mp hx).1)
    · have hb := hhigh x (mem_freeOnes.mp hx).1
      omega
  refine ⟨hf.freedAlone_tagged hp hc hn, ?_⟩
  refine hf.toListed.place (c := c) (fun x => ht.freeOnes_pos)
    (ht.freeOnes_sorted.imp Nat.ne_of_lt) hfs ?_ ?_ ?_ (fun x hx => ?_) (fun x hx => ?_) ?_
  · rw [freeOnes_append, freeOnes_append, freeOnes_cons_free hself, freeOnes_nil,
      freeOnes_congr fun x hx => hl.isFree (Or.inl (hlow x hx)),
      freeOnes_congr fun y hy => hl.isFree (Or.inr (hhigh y hy))]
  · rw [freedAlone_link, Function.update_self]
    rfl
  · rw [freedAlone_nextFree, Function.update_self]
    split
    next hlast => rw [hclean hlast.1 hlast.2, ← nextFreeOf, hlast.1]
    next => rfl
  · rw [freedAlone_link, Function.update_of_ne (hout x hx)]
    rfl
  · rw [freedAlone_nextFree, Function.update_of_ne (hout x hx)]
    rfl
  · rw [harena]
    rfl

omit hp hc hn in
/-- What is at the start of a chunk that comes behind all free ones is left in the list. -/
theorem Formed.freedAlone_not_listed (hlast : h.nextFreeOf ys = 0) (hfirst : h.prevFreeOf xs ≠ 0)
    (hnext : h.nextFree c ≠ 0) :
    ¬(h.freedAlone a c (h.prevFreeOf xs) (h.nextFreeOf ys)).Listed a (xs ++ ([c] ++ ys)) := by
  intro hlist
  have ht := hf.toTagged
  have hl := hf.freedAlone_local
  have hself := freedAlone_isFree a c (h.prevFreeOf xs) (h.nextFreeOf ys) h
  obtain ⟨i, j, hxs, ⟨rfl, hprev, hcpos, hj⟩, hys⟩ := ht.cut
  have hyf : (h.freedAlone a c (h.prevFreeOf xs) (h.nextFreeOf ys)).freeOnes ys = h.freeOnes ys :=
    freeOnes_congr fun y hy => hl.isFree (Or.inr
      (by rw [tags_nil] at hj; rw [hj]; exact (hys.bounds hy).1))
  rw [List.singleton_append] at hlist
  have hcnext := (hlist.at hself).2
  rw [freedAlone_nextFree, Function.update_self, if_pos ⟨hlast, hfirst⟩, hyf] at hcnext
  exact hnext (hcnext.trans hlast)

omit hp in
/-- The chunk stays the last busy one. -/
theorem Formed.freedAlone_lastBusy (hb : h.LastBusyRight a (xs ++ ([c] ++ ys))) :
    (h.freedAlone a c (h.prevFreeOf xs) (h.nextFreeOf ys)).LastBusyRight a (xs ++ ([c] ++ ys)) ↔
      ys ≠ [] := by
  have ht := hf.toTagged
  have hl := hf.freedAlone_local
  obtain ⟨i, j, hxs, ⟨rfl, hprev, hcpos, hj⟩, hys⟩ := ht.cut
  obtain rfl : j = c + h.size c := hj.symm
  have harena := congrFun (h.freedAlone_arenas a c (h.prevFreeOf xs) (h.nextFreeOf ys)) a
  rw [Function.update_self] at harena
  have hself := freedAlone_isFree a c (h.prevFreeOf xs) (h.nextFreeOf ys) h
  have hlow : ∀ x ∈ xs, x < c := fun x hx => by have hb := hxs.bounds hx; omega
  have hxb : (h.freedAlone a c (h.prevFreeOf xs) (h.nextFreeOf ys)).busyOnes xs = h.busyOnes xs :=
    busyOnes_congr fun x hx => hl.isFree (Or.inl (hlow x hx))
  have hyb : (h.freedAlone a c (h.prevFreeOf xs) (h.nextFreeOf ys)).busyOnes ys = h.busyOnes ys :=
    busyOnes_congr fun y hy => hl.isFree (Or.inr (hys.bounds hy).1)
  rw [LastBusyRight] at hb ⊢
  rw [harena]
  simp only [List.cons_append, List.nil_append, busyOnes_append, busyOnes_cons_free hself,
    busyOnes_cons_busy hc, lastOr_append, lastOr_cons, hxb, hyb] at hb ⊢
  rw [hb]
  cases ys with
  | nil =>
      refine iff_of_false (fun heq => ?_) (not_not.mpr rfl)
      have hcm := ht.bounds (c := c) (by simp)
      simp only [busyOnes_nil, lastOr_nil] at heq
      have hne : h.busyOnes xs ≠ [] := by
        intro hnil
        rw [hnil, lastOr_nil] at heq
        omega
      have hlt := hlow _ (mem_busyOnes.mp (lastOr_mem (p := 0) hne)).1
      omega
  | cons y ys =>
      refine iff_of_true ?_ (List.cons_ne_nil y ys)
      rw [busyOnes_cons_busy (hn y rfl), lastOr_cons, lastOr_cons]

end Alone

/-! ## The four cases -/

theorem getEnd_setFree (a v : ℕ) (h : Heap θ) : (h.setFree a v).getEnd a = h.getEnd a := by
  simp [getEnd, setFree, modifyArena]

/-- The heap with the chunk `c` counted and marked as free. -/
def marked (a c : ℕ) (h : Heap θ) : Heap θ :=
  (h.setFree a (Word.add (h.arenas a).free (h.size c))).setFlags c 1

theorem marked_arenas (a c : ℕ) (h : Heap θ) : (h.marked a c).arenas a =
    { h.arenas a with free := Word.add (h.arenas a).free (h.size c) } :=
  Function.update_self ..

theorem getEnd_marked (a c : ℕ) (h : Heap θ) : (h.marked a c).getEnd a = h.getEnd a :=
  getEnd_setFree ..

theorem isFree_marked {x : ℕ} (hx : x ≠ c) : (h.marked a c).isFree x = h.isFree x := by
  have hflags : (h.marked a c).flags x = h.flags x := Function.update_of_ne hx ..
  rw [isFree, hflags, isFree]

theorem freeThisChunk_of_prevFree (hp : h.prev c ≠ 0 ∧ h.isFree (h.prev c)) :
    h.freeThisChunk a c =
      let h₁ := h.setFree a (Word.add (h.arenas a).free (h.size c))
      let nn := if h.getNext c < h₁.getEnd a then h.getNext (h.getNext c) else 0
      let h₂ :=
        if nn ≠ 0 ∧ h.isFree (h.getNext c) then h₁.mergeBoth a (h.prev c) c (h.getNext c) nn
        else h₁.mergePrev (h.prev c) c (h.getNext c) (nn != 0)
      some (h.prev c, h₂.replaceLastBusy a c (h₂.prev (h.prev c))) := by
  unfold freeThisChunk
  exact if_pos hp

theorem freeThisChunk_of_not_prevFree (hp : ¬(h.prev c ≠ 0 ∧ h.isFree (h.prev c))) :
    h.freeThisChunk a c =
      let nn := if h.getNext c < (h.marked a c).getEnd a then h.getNext (h.getNext c) else 0
      if nn ≠ 0 ∧ (h.marked a c).isFree (h.getNext c) then
        some (c, (h.marked a c).mergeNext a c (h.getNext c) nn)
      else ((h.marked a c).introduceFreeChunk a c).map fun h => (c, h) := by
  unfold freeThisChunk
  exact if_neg hp

theorem Formed.freeThisChunk_both (hf : h.Formed a (xs ++ ([p, c, n] ++ ys))) (hp : h.isFree p)
    (hn : h.isFree n) : h.freeThisChunk a c = some (p, h.freedBoth a p c n (h.prev p)) := by
  have ht := hf.toTagged
  have hnb := ht.bounds (c := n) (by simp)
  have hpb := ht.bounds (c := p) (by simp)
  have hcn := ht.getNext_eq (c := c) (by simp)
  have hnn := ht.getNext_eq (c := n) (by simp)
  have hend := ht.getEnd_eq
  obtain ⟨i, j, hxs, ⟨rfl, hprev, hppos, hcp, hcprev, hcpos, hnc, -, hnpos, hj⟩, hys⟩ := ht.cut
  obtain rfl : h.getNext c = n := by omega
  rw [freeThisChunk_of_prevFree (by rw [hcprev]; exact ⟨by omega, hp⟩), hcprev]
  dsimp only
  rw [getEnd_setFree, if_pos (show h.getNext c < h.getEnd a by omega), if_pos ⟨by omega, hn⟩]
  have hkeep : ((h.setFree a (Word.add (h.arenas a).free (h.size c))).mergeBoth a p c
      (h.getNext c) (h.getNext (h.getNext c))).prev p = h.prev p := by
    refine patch_of_ne ?_
    omega
  rw [hkeep]
  rfl

/-- What the code finds behind a chunk, if it is not a free one. -/
theorem Tagged.not_free_behind (ht : h.Tagged a (xs ++ c :: ys))
    (hn : ∀ y ∈ ys.head?, h.isFree y = false) :
    ¬((if h.getNext c < h.getEnd a then h.getNext (h.getNext c) else 0) ≠ 0 ∧
        h.isFree (h.getNext c)) ∧
      ((if h.getNext c < h.getEnd a then h.getNext (h.getNext c) else 0) != 0) =
        (h.getNext c).blt (h.getEnd a) := by
  cases ys with
  | nil =>
      have hnot : ¬h.getNext c < h.getEnd a := by rw [ht.next_nil]; exact Nat.lt_irrefl _
      rw [if_neg hnot]
      refine ⟨fun h0 => h0.1 rfl, ?_⟩
      exact (Bool.eq_false_iff.mpr fun hb => hnot (Nat.blt_eq.mp hb)).symm
  | cons n ys =>
      obtain ⟨hnext, hlt, hnn, -⟩ := ht.next_cons
      rw [hnext, if_pos hlt, hn n rfl, bne_iff_ne.mpr hnn, Nat.blt_eq.mpr hlt]
      exact ⟨by simp, rfl⟩

theorem Formed.freeThisChunk_prev (hf : h.Formed a (xs ++ ([p, c] ++ ys))) (hp : h.isFree p)
    (hn : ∀ y ∈ ys.head?, h.isFree y = false) :
    h.freeThisChunk a c = some (p, h.freedPrev a p c (h.getNext c) (h.prev p)) := by
  have ht := hf.toTagged
  have hpb := ht.bounds (c := p) (by simp)
  have hcn := ht.getNext_eq (c := c) (by simp)
  have hsplit : xs ++ ([p, c] ++ ys) = (xs ++ [p]) ++ c :: ys := by simp
  obtain ⟨hnot, hblt⟩ := (hsplit ▸ ht : h.Tagged a ((xs ++ [p]) ++ c :: ys)).not_free_behind hn
  obtain ⟨i, j, hxs, ⟨rfl, hprev, hppos, hcp, hcprev, hcpos, hj⟩, hys⟩ := ht.cut
  rw [freeThisChunk_of_prevFree (by rw [hcprev]; exact ⟨by omega, hp⟩), hcprev]
  dsimp only
  rw [getEnd_setFree, if_neg hnot, hblt]
  have hkeep : ((h.setFree a (Word.add (h.arenas a).free (h.size c))).mergePrev p c
      (h.getNext c) ((h.getNext c).blt (h.getEnd a))).prev p = h.prev p := by
    refine patch_of_ne ?_
    omega
  rw [hkeep]
  rfl

/-- In front of a chunk there is none, or one that is not free. -/
theorem Tagged.not_free_before (ht : h.Tagged a (xs ++ c :: ys))
    (hp : ∀ x ∈ xs.getLast?, h.isFree x = false) : ¬(h.prev c ≠ 0 ∧ h.isFree (h.prev c)) := by
  rw [ht.at.2.1]
  rintro ⟨hne, hfree⟩
  have hmem : lastOr 0 xs ∈ xs := lastOr_mem fun hnil => hne (by rw [hnil]; rfl)
  rw [hp _ (Option.mem_def.mpr (getLast?_of_eq_lastOr hmem rfl))] at hfree
  cases hfree

theorem Formed.freeThisChunk_next (hf : h.Formed a (xs ++ ([c, n] ++ ys)))
    (hp : ∀ x ∈ xs.getLast?, h.isFree x = false) (hn : h.isFree n) :
    h.freeThisChunk a c = some (c, h.freedNext a c n) := by
  have ht := hf.toTagged
  have hcn := ht.getNext_eq (c := c) (by simp)
  have hcb := ht.bounds (c := c) (by simp)
  obtain ⟨rfl, hlt, hnn, -⟩ := ht.next_cons
  have hfree : (h.marked a c).isFree (h.getNext c) := by rwa [isFree_marked (by omega)]
  have hcond : (h.getNext c) < (h.marked a c).getEnd a := by rwa [getEnd_marked]
  rw [freeThisChunk_of_not_prevFree (ht.not_free_before hp)]
  exact (if_pos ⟨by rw [if_pos hcond]; exact hnn, hfree⟩).trans (by rw [if_pos hcond]; rfl)

theorem Formed.freeThisChunk_alone (hf : h.Formed a (xs ++ ([c] ++ ys)))
    (hc : h.isFree c = false) (hp : ∀ x ∈ xs.getLast?, h.isFree x = false)
    (hn : ∀ y ∈ ys.head?, h.isFree y = false) :
    h.freeThisChunk a c =
      some (c, h.freedAlone a c (h.prevFreeOf xs) (h.nextFreeOf ys)) := by
  have ht := hf.toTagged
  have hcn := ht.getNext_eq (c := c) (by simp)
  have hcb := ht.bounds (c := c) (by simp)
  have ht' : h.Tagged a (xs ++ c :: ys) := ht
  obtain ⟨hnot, -⟩ := ht'.not_free_behind hn
  have hfs : h.freeOnes (xs ++ ([c] ++ ys)) = h.freeOnes xs ++ h.freeOnes ys := by
    simp [freeOnes_cons_busy hc]
  have hsorted := ht.tags.sorted
  simp only [List.cons_append, List.nil_append, List.pairwise_append, List.pairwise_cons] at hsorted
  have hintro : (h.marked a c).introduceFreeChunk a c =
      some ((h.marked a c).introduced a c (h.prevFreeOf xs) (h.nextFreeOf ys)) := by
    refine introduceFreeChunk_eq (hfs ▸ hf.links) ?_ (fun x hx => ht.freeOnes_pos (hfs ▸ hx))
      (fun x hx => ?_) (fun y hy => ?_) ?_
    · rw [marked_arenas, ← hfs]
      exact hf.last
    · exact hsorted.2.2 x (mem_freeOnes.mp hx).1 c List.mem_cons_self
    · exact hsorted.2.1.1 y (mem_freeOnes.mp hy).1
    · have hlen := ht.freeOnes_length_lt
      rw [hfs] at hlen
      rw [fuel, marked_arenas]
      exact hlen
  rw [← getEnd_marked a c h, ← isFree_marked (a := a) (c := c) (x := h.getNext c) (by omega)] at hnot
  rw [freeThisChunk_of_not_prevFree (ht.not_free_before hp)]
  exact (if_neg hnot).trans (congrArg (Option.map _) hintro)

/-! ## What becomes of the arena -/

/-- The chunk in front of `c` is free, or the one behind it. -/
def FreeAround (h : Heap θ) (a c : ℕ) : Prop :=
  (h.prev c ≠ 0 ∧ h.isFree (h.prev c)) ∨ (h.getNext c < h.getEnd a ∧ h.isFree (h.getNext c))

/-- There are free chunks, all in front of `c` but none next to it, and something is at the start
of its contents. -/
def LinkLost (h : Heap θ) (a c : ℕ) : Prop :=
  ¬h.FreeAround a c ∧ (h.arenas a).lastFree ≠ 0 ∧ (h.arenas a).lastFree < c ∧ h.nextFree c ≠ 0

/-- The chunk is at the end of the arena, and the one in front of it is not free. -/
def LastBusyLost (h : Heap θ) (a c : ℕ) : Prop :=
  ¬h.FreeAround a c ∧ h.getNext c = h.getEnd a

/-- One of the chunks ends where the other one begins. -/
def Neighbours (h : Heap θ) (x c : ℕ) : Prop := x + h.size x = c ∨ c + h.size c = x

/-- The chunk `c` is in the free chunk `d` now.  The list of free chunks and `LastBusy` are right
again, except in one case each. -/
structure Freed (h h' : Heap θ) (a c d : ℕ) (cs cs' : List ℕ) : Prop where
  tagged : h'.Tagged a cs'
  size : (h'.arenas a).size = (h.arenas a).size
  free : (h'.arenas a).free = (h.arenas a).free + h.size c
  within : d ∈ cs' ∧ h'.isFree d ∧ d ≤ c ∧ c + h.size c ≤ d + h'.size d
  frame : ∃ i j, a + 128 ≤ i ∧ j ≤ a + (h.arenas a).size ∧ Local h h' a i j (h.freeOnes cs) ∧
    ∀ x ∈ cs, x ≠ c → ¬(h.isFree x ∧ h.Neighbours x c) → (x + h.size x ≤ i ∨ j ≤ x) ∧ x ∈ cs'
  listed : h'.Listed a cs' ↔ ¬h.LinkLost a c
  lastBusy : h.LastBusyRight a cs → (h'.LastBusyRight a cs' ↔ ¬h.LastBusyLost a c)

theorem FreeAround.not_linkLost (hfree : h.FreeAround a c) : ¬h.LinkLost a c :=
  fun hlost => hlost.1 hfree

theorem FreeAround.not_lastBusyLost (hfree : h.FreeAround a c) : ¬h.LastBusyLost a c :=
  fun hlost => hlost.1 hfree

/-- Chunks other than `c` and its free neighbours are beside what is replaced. -/
theorem beside {size prev : ℕ → ℕ} {ms ms' : List ℕ} {s i j q e : ℕ}
    (hxs : Tags size prev 0 s xs i) (hys : Tags size prev q j ys e)
    (hms : ∀ x ∈ ms, x ≠ c → h.isFree x ∧ h.Neighbours x c) :
    ∀ x ∈ xs ++ (ms ++ ys), x ≠ c → ¬(h.isFree x ∧ h.Neighbours x c) →
      (x + size x ≤ i ∨ j ≤ x) ∧ x ∈ xs ++ (ms' ++ ys) := by
  intro x hx hxc hxf
  rcases List.mem_append.mp hx with hx | hx
  · exact ⟨Or.inl (hxs.bounds hx).2.2, by simp [hx]⟩
  · rcases List.mem_append.mp hx with hx | hx
    · exact absurd (hms x hx hxc) hxf
    · exact ⟨Or.inr (hys.bounds hx).1, by simp [hx]⟩

theorem Formed.freed_both (hf : h.Formed a (xs ++ ([p, c, n] ++ ys))) (hp : h.isFree p)
    (hc : h.isFree c = false) (hn : h.isFree n) :
    Freed h (h.freedBoth a p c n (h.prev p)) a c p (xs ++ ([p, c, n] ++ ys)) (xs ++ ([p] ++ ys)) := by
  have hf' := hf.freedBoth hp hc hn (h.prev p)
  have ht := hf.toTagged
  have hlt := ht.site.end_lt
  have hpb := ht.bounds (c := p) (by simp)
  have hnb := ht.bounds (c := n) (by simp)
  have harena := congrFun (h.freedBoth_arenas a p c n (h.prev p)) a
  rw [Function.update_self] at harena
  obtain ⟨i, j, hxs, ⟨rfl, hprev, hppos, hcp, hcprev, hcpos, hnc, -, hnpos, hj⟩, hys⟩ := ht.cut
  obtain rfl : j = n + h.size n := by rw [tags_nil] at hj; omega
  have haround : h.FreeAround a c := Or.inl (by rw [hcprev]; exact ⟨by omega, hp⟩)
  have hsize : (h.freedBoth a p c n (h.prev p)).size p = h.size p + (h.size c + h.size n) := by
    rw [freedBoth_size, Function.update_self, Word.add_of_lt (a := h.size c), Word.add_of_lt]
    all_goals omega
  refine ⟨hf'.toTagged, by rw [harena], ?_, ⟨by simp, hp, by omega, by omega⟩,
    ⟨p, n + h.size n, hpb.1, hnb.2.2, hf.freedBoth_local hn _, beside hxs hys fun x hx hxc => ?_⟩,
    iff_of_true hf'.toListed haround.not_linkLost,
    fun hb => iff_of_true (hf.freedBoth_lastBusy hp hc hn hb) haround.not_lastBusyLost⟩
  · rw [harena, Word.add_of_lt (ht.free_add_lt (by simp) hc)]
  · simp only [List.mem_cons, List.not_mem_nil, or_false] at hx
    rcases hx with rfl | rfl | rfl
    · exact ⟨hp, Or.inl hcp.symm⟩
    · exact absurd rfl hxc
    · exact ⟨hn, Or.inr (by omega)⟩

theorem Formed.freed_prev (hf : h.Formed a (xs ++ ([p, c] ++ ys))) (hp : h.isFree p)
    (hc : h.isFree c = false) (hn : ∀ y ∈ ys.head?, h.isFree y = false) :
    Freed h (h.freedPrev a p c (h.getNext c) (h.prev p)) a c p (xs ++ ([p, c] ++ ys))
      (xs ++ ([p] ++ ys)) := by
  have hf' := hf.freedPrev hp hc rfl hn (h.prev p)
  have ht := hf.toTagged
  have hlt := ht.site.end_lt
  have hpb := ht.bounds (c := p) (by simp)
  have hcb := ht.bounds (c := c) (by simp)
  have hcn := ht.getNext_eq (c := c) (by simp)
  have harena := congrFun (h.freedPrev_arenas a p c (h.getNext c) (h.prev p)) a
  rw [Function.update_self] at harena
  obtain ⟨i, j, hxs, ⟨rfl, hprev, hppos, hcp, hcprev, hcpos, hj⟩, hys⟩ := ht.cut
  obtain rfl : j = h.getNext c := by rw [tags_nil] at hj; omega
  have haround : h.FreeAround a c := Or.inl (by rw [hcprev]; exact ⟨by omega, hp⟩)
  have hsize : (h.freedPrev a p c (h.getNext c) (h.prev p)).size p = h.size p + h.size c := by
    rw [freedPrev_size, Function.update_self, Word.add_of_lt]
    omega
  refine ⟨hf'.toTagged, by rw [harena], ?_, ⟨by simp, hp, by omega, by omega⟩,
    ⟨p, h.getNext c, hpb.1, by omega, hf.freedPrev_local rfl _,
      beside hxs hys fun x hx hxc => ?_⟩,
    iff_of_true hf'.toListed haround.not_linkLost,
    fun hb => iff_of_true (hf.freedPrev_lastBusy hp hc hb) haround.not_lastBusyLost⟩
  · rw [harena, Word.add_of_lt (ht.free_add_lt (by simp) hc)]
  · simp only [List.mem_cons, List.not_mem_nil, or_false] at hx
    rcases hx with rfl | rfl
    · exact ⟨hp, Or.inl hcp.symm⟩
    · exact absurd rfl hxc

theorem Formed.freed_next (hf : h.Formed a (xs ++ ([c, n] ++ ys)))
    (hp : ∀ x ∈ xs.getLast?, h.isFree x = false) (hc : h.isFree c = false) (hn : h.isFree n) :
    Freed h (h.freedNext a c n) a c c (xs ++ ([c, n] ++ ys)) (xs ++ ([c] ++ ys)) := by
  have hf' := hf.freedNext hp hc hn
  have ht := hf.toTagged
  have hlt := ht.site.end_lt
  have hcb := ht.bounds (c := c) (by simp)
  have hnb := ht.bounds (c := n) (by simp)
  have hnn := ht.getNext_eq (c := n) (by simp)
  have ht' : h.Tagged a (xs ++ c :: n :: ys) := ht
  have hnext := ht'.next_cons
  obtain ⟨i, j, hxs, ⟨rfl, hprev, hcpos, hnc, -, hnpos, hj⟩, hys⟩ := ht.cut
  obtain rfl : j = n + h.size n := by rw [tags_nil] at hj; omega
  have harena := congrFun (h.freedNext_arenas a c n (by omega) (hf.link_ne hn)) a
  rw [Function.update_self] at harena
  have haround : h.FreeAround a c := Or.inr (by rw [hnext.1]; exact ⟨hnext.2.1, hn⟩)
  have hsize : (h.freedNext a c n).size c = h.size c + h.size n := by
    rw [freedNext_size, Function.update_self, Word.add_of_lt]
    omega
  have hself := freedNext_isFree a c n h
  refine ⟨hf'.toTagged, by rw [harena], ?_, ⟨by simp, hself, Nat.le_refl c, by omega⟩,
    ⟨c, n + h.size n, hcb.1, hnb.2.2, hf.freedNext_local hn, beside hxs hys fun x hx hxc => ?_⟩,
    iff_of_true hf'.toListed haround.not_linkLost,
    fun hb => iff_of_true (hf.freedNext_lastBusy hp hc hn hb) haround.not_lastBusyLost⟩
  · rw [harena, Word.add_of_lt (ht.free_add_lt (by simp) hc)]
  · simp only [List.mem_cons, List.not_mem_nil, or_false] at hx
    rcases hx with rfl | rfl
    · exact absurd rfl hxc
    · exact ⟨hn, Or.inr hnc.symm⟩

/-- `LastFree` tells whether all free chunks are in front of a chunk. -/
theorem Formed.lastFree_lt_iff (hf : h.Formed a (xs ++ ([c] ++ ys))) (hc : h.isFree c = false) :
    ((h.arenas a).lastFree ≠ 0 ∧ (h.arenas a).lastFree < c) ↔
      h.nextFreeOf ys = 0 ∧ h.prevFreeOf xs ≠ 0 := by
  have ht := hf.toTagged
  have hsorted := ht.tags.sorted
  simp only [List.cons_append, List.nil_append, List.pairwise_append, List.pairwise_cons] at hsorted
  have hfs : h.freeOnes (xs ++ ([c] ++ ys)) = h.freeOnes xs ++ h.freeOnes ys := by
    simp [freeOnes_cons_busy hc]
  rw [hf.last, hfs, lastOr_append, nextFreeOf, prevFreeOf]
  cases hys : h.freeOnes ys with
  | nil =>
      constructor
      · intro hlast
        exact ⟨rfl, hlast.1⟩
      · intro hlast
        have hmem := prevFreeOf_mem hlast.2
        exact ⟨hlast.2, hsorted.2.2 _ (mem_freeOnes.mp hmem).1 c List.mem_cons_self⟩
  | cons y zs =>
      have hmem : ∀ z ∈ y :: zs, c < z := fun z hz =>
        hsorted.2.1.1 z (mem_freeOnes.mp (hys ▸ hz)).1
      have hlt := hmem _ (lastOr_mem (p := 0) (List.cons_ne_nil y zs))
      have hy := hmem y List.mem_cons_self
      refine iff_of_false (fun hlast => ?_) fun hnext => ?_
      · exact Nat.lt_asymm hlt hlast.2
      · have hy0 : y = 0 := hnext.1
        omega

theorem Formed.freed_alone (hf : h.Formed a (xs ++ ([c] ++ ys)))
    (hp : ∀ x ∈ xs.getLast?, h.isFree x = false) (hc : h.isFree c = false)
    (hn : ∀ y ∈ ys.head?, h.isFree y = false) :
    Freed h (h.freedAlone a c (h.prevFreeOf xs) (h.nextFreeOf ys)) a c c (xs ++ ([c] ++ ys))
      (xs ++ ([c] ++ ys)) := by
  have ht := hf.toTagged
  have hcb := ht.bounds (c := c) (by simp)
  have hcn := ht.getNext_eq (c := c) (by simp)
  have harena := congrFun (h.freedAlone_arenas a c (h.prevFreeOf xs) (h.nextFreeOf ys)) a
  rw [Function.update_self] at harena
  have hself := freedAlone_isFree a c (h.prevFreeOf xs) (h.nextFreeOf ys) h
  have hnot : ¬h.FreeAround a c := by
    rintro (hfree | ⟨hlt, hfree⟩)
    · exact ht.not_free_before hp hfree
    · cases ys with
      | nil =>
          have ht' : h.Tagged a (xs ++ [c]) := ht
          rw [ht'.next_nil] at hlt
          exact Nat.lt_irrefl _ hlt
      | cons y ys =>
          have ht' : h.Tagged a (xs ++ c :: y :: ys) := ht
          rw [ht'.next_cons.1, hn y rfl] at hfree
          cases hfree
  obtain ⟨i, j, hxs, ⟨rfl, hprev, hcpos, hj⟩, hys⟩ := ht.cut
  obtain rfl : j = c + h.size c := hj.symm
  refine ⟨hf.freedAlone_tagged hp hc hn, by rw [harena], ?_,
    ⟨by simp, hself, Nat.le_refl c, Nat.le_refl _⟩,
    ⟨c, c + h.size c, hcb.1, hcb.2.2, hf.freedAlone_local, beside hxs hys fun x hx hxc => ?_⟩,
    ?_, fun hb => (hf.freedAlone_lastBusy hc hn hb).trans ?_⟩
  · rw [harena, Word.add_of_lt (ht.free_add_lt (by simp) hc)]
  · exact absurd (List.mem_singleton.mp hx) hxc
  · constructor
    · rintro hlist ⟨-, hne, hlt, hnext⟩
      obtain ⟨hlast, hfirst⟩ := (hf.lastFree_lt_iff hc).mp ⟨hne, hlt⟩
      exact hf.freedAlone_not_listed hlast hfirst hnext hlist
    · intro hlost
      refine (hf.freedAlone hp hc hn fun hlast hfirst => ?_).toListed
      by_contra hnext
      obtain ⟨hne, hlt⟩ := (hf.lastFree_lt_iff hc).mpr ⟨hlast, hfirst⟩
      exact hlost ⟨hnot, hne, hlt, hnext⟩
  · cases ys with
    | nil =>
        have ht' : h.Tagged a (xs ++ [c]) := ht
        exact iff_of_false (not_not.mpr rfl) (not_not.mpr ⟨hnot, ht'.next_nil⟩)
    | cons y ys =>
        refine iff_of_true (List.cons_ne_nil y ys) fun hlost => ?_
        have ht' : h.Tagged a (xs ++ c :: y :: ys) := ht
        have hnext := ht'.next_cons
        have hlt := hnext.2.1
        rw [← hnext.1, hlost.2] at hlt
        exact Nat.lt_irrefl _ hlt

/-- A chunk that is not free is freed. -/
theorem Formed.freeThisChunk (hf : h.Formed a cs) (hmem : c ∈ cs) (hc : h.isFree c = false) :
    ∃ d h' cs', h.freeThisChunk a c = some (d, h') ∧ Freed h h' a c d cs cs' := by
  obtain ⟨xs, ys, rfl⟩ := List.append_of_mem hmem
  have hfront : (∃ xs' p, xs = xs' ++ [p] ∧ h.isFree p) ∨ ∀ x ∈ xs.getLast?, h.isFree x = false := by
    cases xs using List.reverseRecOn with
    | nil => exact Or.inr (by simp)
    | append_singleton xs p =>
        cases hp : h.isFree p with
        | true => exact Or.inl ⟨xs, p, rfl, hp⟩
        | false => exact Or.inr (by simpa using hp)
  have hbehind : (∃ n ys', ys = n :: ys' ∧ h.isFree n) ∨ ∀ y ∈ ys.head?, h.isFree y = false := by
    cases ys with
    | nil => exact Or.inr (by simp)
    | cons n ys =>
        cases hn : h.isFree n with
        | true => exact Or.inl ⟨n, ys, rfl, hn⟩
        | false => exact Or.inr (by simpa using hn)
  rcases hfront with ⟨xs, p, rfl, hp⟩ | hp <;> rcases hbehind with ⟨n, ys, rfl, hn⟩ | hn
  · have hsplit : xs ++ [p] ++ c :: n :: ys = xs ++ ([p, c, n] ++ ys) := by simp
    rw [hsplit] at hf ⊢
    exact ⟨p, _, _, hf.freeThisChunk_both hp hn, hf.freed_both hp hc hn⟩
  · have hsplit : xs ++ [p] ++ c :: ys = xs ++ ([p, c] ++ ys) := by simp
    rw [hsplit] at hf ⊢
    exact ⟨p, _, _, hf.freeThisChunk_prev hp hn, hf.freed_prev hp hc hn⟩
  · exact ⟨c, _, _, hf.freeThisChunk_next hp hn, hf.freed_next hp hc hn⟩
  · exact ⟨c, _, _, hf.freeThisChunk_alone hc hp hn, hf.freed_alone hp hc hn⟩

/-! ## The boundary tags -/

/-- The size that `FreeThisChunk` returns beside the chunk. -/
def freedSize (a c : ℕ) (h : Heap θ) : Option ℕ :=
  (h.freeThisChunk a c).map fun res => res.2.size res.1

/-- A chunk is as it was, apart from its links, and so is what is in it. -/
structure Unchanged (h h' : Heap θ) (x : ℕ) : Prop where
  size : h'.size x = h.size x
  flags : h'.flags x = h.flags x
  owner : h.isFree x = false → h'.link x = h.link x
  contents : h.isFree x = false → h'.nextFree x = h.nextFree x
  rest : h'.rest = h.rest
  inside : ∀ y, x < y → y < x + h.size x → h'.link y = h.link y ∧ h'.prev y = h.prev y ∧
    h'.size y = h.size y ∧ h'.flags y = h.flags y ∧ h'.nextFree y = h.nextFree y

/-- What is beside the chunks that are replaced does not change. -/
theorem Tagged.unchanged {i j x : ℕ} (ht : h.Tagged a cs) (hl : Local h h' a i j (h.freeOnes cs))
    (hx : x ∈ cs) (hbeside : x + h.size x ≤ i ∨ j ≤ x) : Unchanged h h' x := by
  have hbounds := ht.bounds hx
  have hout : x < i ∨ j ≤ x := by omega
  have hnot : h.isFree x = false → x ∉ h.freeOnes cs := by
    intro hbusy hfree
    rw [(mem_freeOnes.mp hfree).2] at hbusy
    cases hbusy
  constructor
  case size => exact hl.size x hout
  case flags => exact hl.flags x hout
  case owner => exact fun hbusy => hl.link x hout (hnot hbusy)
  case contents => exact fun hbusy => hl.nextFree x hout (hnot hbusy)
  case rest => exact hl.rest
  case inside =>
    intro y hlow hupp
    have hy : y ∉ h.freeOnes cs := fun hfree =>
      ht.tags.not_mem_inside hx hlow hupp (mem_freeOnes.mp hfree).1
    have hyout : y < i ∨ j ≤ y := by omega
    exact ⟨hl.link y hyout hy, hl.prev y (by omega), hl.size y hyout, hl.flags y hyout,
      hl.nextFree y hyout hy⟩

/-- A chunk that is not free is freed: the boundary tags of the arena are right again, and the other
chunks are as they were, apart from the neighbours of this one. -/
theorem freeThisChunk_boundaryTags (hf : h.Formed a cs) (hmem : c ∈ cs)
    (hc : h.isFree c = false) :
    ∃ d h' cs', h.freeThisChunk a c = some (d, h') ∧ h.freedSize a c = some (h'.size d) ∧
      h'.Tagged a cs' ∧ (h'.arenas a).size = (h.arenas a).size ∧
      (h'.arenas a).free = (h.arenas a).free + h.size c ∧
      (d ∈ cs' ∧ h'.isFree d ∧ d ≤ c ∧ c + h.size c ≤ d + h'.size d) ∧
      ∀ x ∈ cs, x ≠ c → ¬h.Neighbours x c → x ∈ cs' ∧ Unchanged h h' x := by
  obtain ⟨d, h', cs', hfree, hfreed⟩ := hf.freeThisChunk hmem hc
  obtain ⟨i, j, -, -, hl, hbeside⟩ := hfreed.frame
  refine ⟨d, h', cs', hfree, ?_, hfreed.tagged, hfreed.size, hfreed.free, hfreed.within, ?_⟩
  · rw [freedSize, hfree]
    rfl
  · intro x hx hxc hfar
    obtain ⟨hside, hx'⟩ := hbeside x hx hxc fun hnear => hfar hnear.2
    exact ⟨hx', hf.toTagged.unchanged hl hx hside⟩

/-- An arena at `4096` with two chunks, of which the first one is busy and the other one free. -/
def twoChunks : Heap Unit where
  link := fun c => if c = 4224 then 4096 else 0
  prev := fun c => if c = 4288 then 4224 else 0
  size := fun _ => 64
  flags := fun c => if c = 4288 then 1 else 0
  nextFree := fun _ => 0
  rest := fun _ _ => 0
  arenas := fun _ => ⟨0, 0, 256, 64, some (), 4288, 4224, 0⟩
  firstArena := fun _ => 4096
  gList := 0
  live := [4096]

theorem twoChunks_formed : twoChunks.Formed 4096 [4224, 4288] := by
  constructor
  case toTagged =>
    constructor
    case site => exact ⟨by decide, by decide, by decide⟩
    case tags => exact ⟨rfl, rfl, by decide, rfl, rfl, by decide, rfl⟩
    case ne => exact List.cons_ne_nil _ _
    case lines => exact fun _ _ => ⟨1, rfl⟩
    case free => rfl
    case apart => exact apart_cons_cons.mpr ⟨by decide, apart_singleton _⟩
  case toListed => exact ⟨⟨rfl, rfl, trivial⟩, rfl⟩

theorem freeThisChunk_boundaryTags_two : ∃ d h' cs',
    twoChunks.freeThisChunk 4096 4224 = some (d, h') ∧
      twoChunks.freedSize 4096 4224 = some (h'.size d) ∧
      h'.Tagged 4096 cs' ∧ (h'.arenas 4096).size = (twoChunks.arenas 4096).size ∧
      (h'.arenas 4096).free = (twoChunks.arenas 4096).free + twoChunks.size 4224 ∧
      (d ∈ cs' ∧ h'.isFree d ∧ d ≤ 4224 ∧ 4224 + twoChunks.size 4224 ≤ d + h'.size d) ∧
      ∀ x ∈ [4224, 4288], x ≠ 4224 → ¬twoChunks.Neighbours x 4224 →
        x ∈ cs' ∧ Unchanged twoChunks h' x :=
  freeThisChunk_boundaryTags twoChunks_formed (by decide) rfl

end Beelzebub.Valloc.Heap
