import Beelzebub.Lib.Word
import Beelzebub.Memory.Enums

/-!
# The memory map of the firmware

The boot loader aligns the entries of the firmware's memory map to pages, and the
kernel then creates an allocation space over each available entry past the memory
that is already in use.
-/

namespace Beelzebub.Boot

open Memory (pageSize)

/-- `jg_info_mmap_t`. -/
structure MmapEntry where
  address : Nat
  length : Nat
  available : Bool
deriving DecidableEq, Repr

/-- `a & 0xFFFFFFFFFFFFF000`. -/
def pageMask (a : Nat) : Nat := a - a % pageSize

/-- `multiboot_align_mmap`: available entries shrink to whole pages, others grow. -/
def alignMmap (entry : MmapEntry) : MmapEntry :=
  let endAddr := Word.add entry.address entry.length
  if entry.available then
    let alignedAddr := pageMask (Word.add entry.address 0xFFF)
    { entry with address := alignedAddr, length := Word.sub (pageMask endAddr) alignedAddr }
  else
    let alignedAddr := pageMask entry.address
    { entry with
      address := alignedAddr
      length := Word.sub (pageMask (Word.add endAddr 0xFFF)) alignedAddr }

/-- `RoundUp` to a page. -/
def roundUp (value : Nat) : Nat := Word.add value (pageSize - 1) / pageSize * pageSize

/-- The end of an entry, as the kernel computes it. -/
def mEnd (m : MmapEntry) : Nat := Word.add m.address m.length

/-- The locals of the loop that selects the entries to walk over. -/
structure Scan where
  firstMap : Option Nat
  lastMap : Option Nat
  endAddr : Nat
deriving DecidableEq, Repr

/-- The body of that loop. -/
def scanEntry (freeStart i : Nat) (m : MmapEntry) (s : Scan) : Scan :=
  if mEnd m ≤ freeStart ∨ ¬m.available then s
  else
    let s := { s with firstMap := s.firstMap.or (some i) }
    if mEnd m > s.endAddr then { s with endAddr := mEnd m, lastMap := some i } else s

def scanMaps (freeStart : Nat) : List MmapEntry → Nat → Scan → Scan
  | [], _, s => s
  | m :: map, i, s => scanMaps freeStart map (i + 1) (scanEntry freeStart i m s)

/-- The arguments for `CreateAllocationSpace`, if the entry gets a space. -/
def spaceOf (start : Nat) (m : MmapEntry) : Option (Nat × Nat) :=
  if m.available ∧ m.length ≥ 2 * pageSize then
    -- the entry may cross the start of free memory
    if m.address < start ∧ mEnd m > start then some (start, mEnd m)
    else some (m.address, mEnd m)
  else none

/-- The arguments for `ReserveRange`, if the entry is reserved. -/
def reservationOf (m : MmapEntry) : Option (Nat × Nat) :=
  if m.available then none else some (m.address, m.length)

/-- `InitializePhysicalAllocator`: the ranges it passes to `CreateAllocationSpace` and
those it passes to `ReserveRange`.  `none` when it walks from a null pointer, since
no entry was selected. -/
def initializePhysicalAllocator (map : List MmapEntry) (freeStart : Nat) :
    Option (List (Nat × Nat) × List (Nat × Nat)) :=
  let start := roundUp freeStart
  let s := scanMaps freeStart map 0 { firstMap := none, lastMap := none, endAddr := 0 }
  match s.firstMap, s.lastMap with
  | some first, some last =>
      let walked := (map.drop first).take (last + 1 - first)
      some (walked.filterMap (spaceOf start), walked.filterMap reservationOf)
  | _, _ => none

/-! ## Selection of the entries -/

/-- The loop takes note of the entry. -/
def Selected (freeStart : Nat) (m : MmapEntry) : Prop := m.available = true ∧ freeStart < mEnd m

/-- What the loop knows after a part of the map. -/
inductive Scanned (freeStart : Nat) (map : List MmapEntry) : Scan → Prop
  | nothing : (∀ (k : Nat) (m : MmapEntry), map[k]? = some m → ¬Selected freeStart m) →
      Scanned freeStart map { firstMap := none, lastMap := none, endAddr := 0 }
  /-- The first entry selected, and the first of those with the greatest end. -/
  | found {first last : Nat} {m m' : MmapEntry} : map[first]? = some m → Selected freeStart m →
      (∀ (k : Nat) (x : MmapEntry), k < first → map[k]? = some x → ¬Selected freeStart x) →
      map[last]? = some m' → Selected freeStart m' →
      (∀ (k : Nat) (x : MmapEntry), map[k]? = some x → Selected freeStart x → mEnd x ≤ mEnd m' ∧
        (k < last → mEnd x < mEnd m')) →
      Scanned freeStart map { firstMap := some first, lastMap := some last, endAddr := mEnd m' }

variable {freeStart : Nat} {map : List MmapEntry} {s : Scan} {m : MmapEntry}

theorem getElem?_concat {k : Nat} {x : MmapEntry} (h : (map ++ [m])[k]? = some x) :
    map[k]? = some x ∨ k = map.length ∧ x = m := by
  rcases Nat.lt_trichotomy k map.length with hk | hk | hk
  · rw [List.getElem?_append_left hk] at h
    exact Or.inl h
  · subst hk
    rw [List.getElem?_concat_length] at h
    exact Or.inr ⟨rfl, (Option.some.inj h).symm⟩
  · rw [List.getElem?_eq_none (by simp; omega)] at h
    cases h

theorem getElem?_concat_of_some {k : Nat} {x : MmapEntry} (h : map[k]? = some x) :
    k < map.length ∧ (map ++ [m])[k]? = some x := by
  obtain ⟨hk, -⟩ := List.getElem?_eq_some_iff.mp h
  exact ⟨hk, by rw [List.getElem?_append_left hk, h]⟩

/-- One turn of the loop. -/
theorem Scanned.scanEntry (h : Scanned freeStart map s) :
    Scanned freeStart (map ++ [m]) (scanEntry freeStart map.length m s) := by
  have hlast : (map ++ [m])[map.length]? = some m := List.getElem?_concat_length
  unfold Boot.scanEntry
  by_cases hskip : mEnd m ≤ freeStart ∨ ¬m.available
  · have hnot : ¬Selected freeStart m := by
      rintro ⟨hav, hlt⟩
      rcases hskip with hle | hne
      · omega
      · exact hne hav
    rw [if_pos hskip]
    cases h with
    | nothing hnone =>
        refine .nothing fun k x hx => ?_
        rcases getElem?_concat hx with hx | ⟨-, rfl⟩
        · exact hnone k x hx
        · exact hnot
    | found hfirst hsel hbefore hlast' hsel' hmax =>
        refine .found (getElem?_concat_of_some hfirst).2 hsel (fun k x hk hx => ?_)
          (getElem?_concat_of_some hlast').2 hsel' fun k x hx hs => ?_
        · rcases getElem?_concat hx with hx | ⟨-, rfl⟩
          · exact hbefore k x hk hx
          · exact hnot
        · rcases getElem?_concat hx with hx | ⟨-, rfl⟩
          · exact hmax k x hx hs
          · exact absurd hs hnot
  · rw [if_neg hskip]
    have hsel : Selected freeStart m := by
      rw [not_or, not_not] at hskip
      exact ⟨hskip.2, Nat.lt_of_not_le hskip.1⟩
    cases h with
    | nothing hnone =>
        have hpos : mEnd m > 0 := Nat.lt_of_le_of_lt (Nat.zero_le _) hsel.2
        simp only [if_pos hpos, Option.none_or]
        refine .found hlast hsel (fun k x hk hx => ?_) hlast hsel fun k x hx hs => ?_
        · rcases getElem?_concat hx with hx | ⟨rfl, -⟩
          · exact hnone k x hx
          · exact absurd hk (Nat.lt_irrefl _)
        · rcases getElem?_concat hx with hx | ⟨rfl, rfl⟩
          · exact absurd hs (hnone k x hx)
          · exact ⟨Nat.le_refl _, fun h => absurd h (Nat.lt_irrefl _)⟩
    | @found first last m₁ m₂ hfirst hsel₁ hbefore hlast' hsel₂ hmax =>
        simp only [Option.some_or]
        have hbefore' : ∀ k x, k < first → (map ++ [m])[k]? = some x → ¬Selected freeStart x := by
          intro k x hk hx
          rcases getElem?_concat hx with hx | ⟨rfl, -⟩
          · exact hbefore k x hk hx
          · exact absurd (getElem?_concat_of_some (m := m) hfirst).1 (by omega)
        by_cases hgt : mEnd m > mEnd m₂
        · rw [if_pos hgt]
          refine .found (getElem?_concat_of_some hfirst).2 hsel₁ hbefore' hlast hsel
            fun k x hx hs => ?_
          rcases getElem?_concat hx with hx | ⟨rfl, rfl⟩
          · have := (hmax k x hx hs).1
            exact ⟨by omega, fun _ => by omega⟩
          · exact ⟨Nat.le_refl _, fun h => absurd h (Nat.lt_irrefl _)⟩
        · rw [if_neg hgt]
          refine .found (getElem?_concat_of_some hfirst).2 hsel₁ hbefore'
            (getElem?_concat_of_some hlast').2 hsel₂ fun k x hx hs => ?_
          rcases getElem?_concat hx with hx | ⟨rfl, rfl⟩
          · exact hmax k x hx hs
          · have hk := (getElem?_concat_of_some (m := x) hlast').1
            exact ⟨by omega, fun _ => by omega⟩

/-- The whole loop. -/
theorem Scanned.scanMaps (h : Scanned freeStart map s) (rest : List MmapEntry) :
    Scanned freeStart (map ++ rest) (scanMaps freeStart rest map.length s) := by
  induction rest generalizing map s with
  | nil =>
      rw [List.append_nil]
      exact h
  | cons m rest ih =>
      have hstep := ih (h.scanEntry (m := m))
      rw [List.length_append, List.append_assoc] at hstep
      exact hstep

theorem scanned_scanMaps (map : List MmapEntry) (freeStart : Nat) :
    Scanned freeStart map
      (scanMaps freeStart map 0 { firstMap := none, lastMap := none, endAddr := 0 }) := by
  have hnil : Scanned freeStart [] { firstMap := none, lastMap := none, endAddr := 0 } :=
    .nothing fun k m hm => by simp at hm
  exact hnil.scanMaps map

end Beelzebub.Boot
