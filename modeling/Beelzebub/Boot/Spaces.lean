import Beelzebub.Boot.MemoryMap

/-!
# Allocation spaces over the memory map

Which ranges `InitializePhysicalAllocator` hands to `CreateAllocationSpace`, in terms
of the firmware's map before it was aligned, and exactly when these are ranges of
free memory (`covers_iff_tame`).
-/

namespace Beelzebub.Boot

open Memory (pageSize)

/-- The page boundaries around an address. -/
def down (a : Nat) : Nat := a / pageSize * pageSize

def up (a : Nat) : Nat := (a + (pageSize - 1)) / pageSize * pageSize

/-- The first address past an entry. -/
def MmapEntry.stop (m : MmapEntry) : Nat := m.address + m.length

/-- A map as the firmware gives it: in ascending order and without overlap. -/
structure Firmware (raw : List MmapEntry) : Prop where
  ordered : raw.Pairwise fun m m' => m.stop ≤ m'.address
  bounded : ∀ m ∈ raw, m.stop < 2 ^ 64

/-- The ranges consist of free memory, and leave out no entry of two pages. -/
structure Covers (raw : List MmapEntry) (freeStart : Nat) (ranges : List (Nat × Nat)) : Prop where
  aligned : ∀ p ∈ ranges, p.1 % pageSize = 0 ∧ p.2 % pageSize = 0 ∧ p.1 ≤ p.2
  above : ∀ p ∈ ranges, freeStart ≤ p.1
  inside : ∀ p ∈ ranges, ∃ m ∈ raw, m.available = true ∧ m.address ≤ p.1 ∧ p.2 ≤ m.stop
  disjoint : ranges.Pairwise fun p q => p.2 ≤ q.1 ∨ q.2 ≤ p.1
  complete : ∀ m ∈ raw, m.available = true →
    max (up m.address) (up freeStart) + 2 * pageSize ≤ down m.stop →
    ∃ p ∈ ranges, m.address ≤ p.1 ∧ p.1 < p.2 ∧ p.2 ≤ m.stop

/-- The entry lies strictly inside of a page. -/
def MmapEntry.Tiny (m : MmapEntry) : Prop := down m.stop < up m.address

instance (m : MmapEntry) : Decidable m.Tiny := inferInstanceAs (Decidable (_ < _))

/-- Some available entry from number `k` on ends in a later page than all available
ones before. -/
def Reaches (raw : List MmapEntry) (k : Nat) : Prop :=
  ∃ (k' : Nat) (x : MmapEntry), k ≤ k' ∧ raw[k']? = some x ∧ x.available = true ∧
    ∀ (i : Nat) (y : MmapEntry), i < k → raw[i]? = some y → y.available = true →
      down y.stop < down x.stop

/-- The maps that the kernel treats well. -/
structure Tame (raw : List MmapEntry) (freeStart : Nat) : Prop where
  /-- Whole pages are available past the memory in use. -/
  some_pages : ∃ m ∈ raw, m.available = true ∧ freeStart < down m.stop
  /-- No available entry inside of a page is followed by another page. -/
  no_tiny : ∀ (k : Nat) (m : MmapEntry), raw[k]? = some m → m.available = true → m.Tiny →
    freeStart < down m.stop → ¬Reaches raw k
  /-- No entry of two pages ends with the page in which the memory in use ends. -/
  no_straddle : ∀ m ∈ raw, m.available = true → up m.address + 2 * pageSize ≤ down m.stop →
    down m.stop = up freeStart → freeStart % pageSize = 0

/-! ## Aligned entries -/

section Align

variable {m : MmapEntry}

theorem pageMask_eq (a : Nat) : pageMask a = down a := by
  unfold pageMask down pageSize
  omega

theorem available_alignMmap (m : MmapEntry) : (alignMmap m).available = m.available := by
  unfold alignMmap
  cases m.available <;> rfl

theorem alignMmap_of_available (hav : m.available = true) (hb : m.stop < 2 ^ 64) :
    alignMmap m =
      { m with address := down (Word.add m.address 0xFFF)
               length := Word.sub (down m.stop) (down (Word.add m.address 0xFFF)) } := by
  have hend : Word.add m.address m.length = m.stop := Word.add_of_lt hb
  unfold alignMmap
  simp only [hav, if_true, hend, pageMask_eq]

/-- The kernel sees the end rounded down, whatever becomes of the length. -/
theorem mEnd_alignMmap (hav : m.available = true) (hb : m.stop < 2 ^ 64) :
    mEnd (alignMmap m) = down m.stop := by
  rw [alignMmap_of_available hav hb, mEnd]
  refine Word.add_sub_cancel ?_
  unfold down pageSize
  omega

/-- An entry with a page boundary in it. -/
theorem alignMmap_whole (hav : m.available = true) (hb : m.stop < 2 ^ 64) (h : ¬m.Tiny) :
    (alignMmap m).address = up m.address ∧ (alignMmap m).length = down m.stop - up m.address := by
  have htiny := h
  unfold MmapEntry.Tiny down up pageSize at htiny
  have hup : down (Word.add m.address 0xFFF) = up m.address := by
    rw [Word.add_of_lt (by unfold MmapEntry.stop at *; omega)]
    rfl
  rw [alignMmap_of_available hav hb, hup]
  have hle : up m.address ≤ down m.stop := Nat.le_of_not_lt h
  refine ⟨rfl, Word.sub_of_le ?_ hle⟩
  unfold down pageSize
  omega

/-- An entry inside of a page: the difference wraps around and is huge. -/
theorem alignMmap_tiny (hav : m.available = true) (hb : m.stop < 2 ^ 64) (h : m.Tiny) :
    2 * pageSize ≤ (alignMmap m).length ∧
      ((alignMmap m).address = down m.stop + pageSize ∨
        (alignMmap m).address = 0 ∧ down m.stop = 2 ^ 64 - pageSize ∧
          2 ^ 64 - pageSize < m.address) := by
  rw [alignMmap_of_available hav hb]
  unfold MmapEntry.Tiny down up MmapEntry.stop pageSize at *
  unfold Word.add Word.sub
  simp only
  omega

end Align

/-! ## The entries that are walked over -/

theorem mem_slice {α : Type*} {l : List α} {x : α} {first last : Nat} :
    x ∈ (l.drop first).take (last + 1 - first) ↔
      ∃ k, first ≤ k ∧ k ≤ last ∧ l[k]? = some x := by
  rw [List.mem_iff_getElem?]
  constructor
  · rintro ⟨i, hi⟩
    rw [List.getElem?_take] at hi
    split at hi
    · rw [List.getElem?_drop] at hi
      exact ⟨first + i, by omega, by omega, hi⟩
    · cases hi
  · rintro ⟨k, hf, hl, hk⟩
    refine ⟨k - first, ?_⟩
    rw [List.getElem?_take, if_pos (by omega), List.getElem?_drop, Nat.add_sub_cancel' hf]
    exact hk

section Walk

variable {raw : List MmapEntry} {freeStart k : Nat} {m : MmapEntry}

theorem Firmware.bounded_of_getElem? (hf : Firmware raw) (h : raw[k]? = some m) :
    m.stop < 2 ^ 64 := hf.bounded m (List.mem_of_getElem? h)

theorem Firmware.stop_le (hf : Firmware raw) {i : Nat} {y : MmapEntry} (hi : raw[i]? = some y)
    (hk : raw[k]? = some m) (hlt : i < k) : y.stop ≤ m.address := by
  obtain ⟨hi', rfl⟩ := List.getElem?_eq_some_iff.mp hi
  obtain ⟨hk', rfl⟩ := List.getElem?_eq_some_iff.mp hk
  exact List.pairwise_iff_getElem.mp hf.ordered i k hi' hk' hlt

theorem down_mono {a b : Nat} (h : a ≤ b) : down a ≤ down b :=
  Nat.mul_le_mul_right _ (Nat.div_le_div_right h)

theorem Firmware.down_le (hf : Firmware raw) {i : Nat} {y : MmapEntry} (hi : raw[i]? = some y)
    (hk : raw[k]? = some m) (hle : i ≤ k) : down y.stop ≤ down m.stop := by
  rcases Nat.lt_or_eq_of_le hle with hlt | rfl
  · have := hf.stop_le hi hk hlt
    refine down_mono ?_
    unfold MmapEntry.stop at *
    omega
  · rw [hi] at hk
    cases hk
    exact Nat.le_refl _

theorem selected_alignMmap (hf : Firmware raw) (h : raw[k]? = some m) :
    Selected freeStart (alignMmap m) ↔ m.available = true ∧ freeStart < down m.stop := by
  rw [Selected, available_alignMmap]
  constructor
  · rintro ⟨hav, hlt⟩
    rw [mEnd_alignMmap hav (hf.bounded_of_getElem? h)] at hlt
    exact ⟨hav, hlt⟩
  · rintro ⟨hav, hlt⟩
    rw [mEnd_alignMmap hav (hf.bounded_of_getElem? h)]
    exact ⟨hav, hlt⟩

/-- The result of the first loop, in terms of the firmware's map. -/
structure Walk (raw : List MmapEntry) (freeStart first last : Nat) : Prop where
  selected : ∃ m ∈ raw, m.available = true ∧ freeStart < down m.stop
  first_le : ∀ {k : Nat} {m : MmapEntry}, raw[k]? = some m → m.available = true →
    (first ≤ k ↔ freeStart < down m.stop)
  le_last : ∀ {k : Nat} {m : MmapEntry}, raw[k]? = some m → m.available = true →
    (k ≤ last ↔ Reaches raw k)

theorem walk_of_scanned (hf : Firmware raw) {first last e : Nat}
    (h : Scanned freeStart (raw.map alignMmap)
      { firstMap := some first, lastMap := some last, endAddr := e }) :
    Walk raw freeStart first last := by
  cases h with
  | @found _ _ a b hfirst hsel hbefore hlast hsel' hmax =>
      rw [List.getElem?_map, Option.map_eq_some_iff] at hfirst hlast
      obtain ⟨mf, hmf, rfl⟩ := hfirst
      obtain ⟨ml, hml, rfl⟩ := hlast
      have hselF := (selected_alignMmap hf hmf).mp hsel
      have hselL := (selected_alignMmap hf hml).mp hsel'
      have hget : ∀ {k : Nat} {m : MmapEntry}, raw[k]? = some m →
          (raw.map alignMmap)[k]? = some (alignMmap m) := by
        intro k m hk
        rw [List.getElem?_map, hk]
        rfl
      have hends : ∀ {k : Nat} {m : MmapEntry}, raw[k]? = some m → m.available = true →
          freeStart < down m.stop → down m.stop ≤ down ml.stop ∧
            (k < last → down m.stop < down ml.stop) := by
        intro k m hk hav hlt
        have := hmax k _ (hget hk) ((selected_alignMmap hf hk).mpr ⟨hav, hlt⟩)
        rwa [mEnd_alignMmap hav (hf.bounded_of_getElem? hk),
          mEnd_alignMmap hselL.1 (hf.bounded_of_getElem? hml)] at this
      refine ⟨⟨mf, List.mem_of_getElem? hmf, hselF⟩, ?_, ?_⟩
      · intro k m hk hav
        constructor
        · intro hle
          exact Nat.lt_of_lt_of_le hselF.2 (hf.down_le hmf hk hle)
        · intro hlt
          by_contra hlt'
          exact hbefore k _ (Nat.lt_of_not_le hlt') (hget hk)
            ((selected_alignMmap hf hk).mpr ⟨hav, hlt⟩)
      · intro k m hk hav
        constructor
        · intro hle
          refine ⟨last, ml, hle, hml, hselL.1, fun i y hi hy hyav => ?_⟩
          by_cases hlt : freeStart < down y.stop
          · exact (hends hy hyav hlt).2 (Nat.lt_of_lt_of_le hi hle)
          · omega
        · rintro ⟨k', x, hle, hx, hxav, hall⟩
          by_contra hlt
          have h1 := hall last ml (Nat.lt_of_not_le hlt) hml hselL.1
          have h2 := (hends hx hxav (by omega)).1
          omega

/-- The ranges that are passed on, if the first loop selects anything. -/
theorem initialize_cases (hf : Firmware raw) (freeStart : Nat) :
    (initializePhysicalAllocator (raw.map alignMmap) freeStart).map Prod.fst = none ∧
        (∀ m ∈ raw, m.available = true → down m.stop ≤ freeStart) ∨
      ∃ first last, Walk raw freeStart first last ∧
        (initializePhysicalAllocator (raw.map alignMmap) freeStart).map Prod.fst =
          some ((((raw.drop first).take (last + 1 - first)).map alignMmap).filterMap
            (spaceOf (roundUp freeStart))) := by
  have hscan := scanned_scanMaps (raw.map alignMmap) freeStart
  unfold initializePhysicalAllocator
  generalize scanMaps freeStart (raw.map alignMmap) 0
    { firstMap := none, lastMap := none, endAddr := 0 } = s at hscan
  cases hscan with
  | nothing hnone =>
      refine Or.inl ⟨rfl, fun m hm hav => ?_⟩
      obtain ⟨k, hk⟩ := List.mem_iff_getElem?.mp hm
      by_contra hlt
      refine hnone k (alignMmap m) (by rw [List.getElem?_map, hk]; rfl) ?_
      exact (selected_alignMmap hf hk).mpr ⟨hav, Nat.lt_of_not_le hlt⟩
  | @found first last a b h1 h2 h3 h4 h5 h6 =>
      refine Or.inr ⟨first, last, walk_of_scanned hf (.found h1 h2 h3 h4 h5 h6), ?_⟩
      rw [List.map_take, List.map_drop]
      rfl

theorem mem_ranges {start first last : Nat} {p : Nat × Nat} :
    p ∈ (((raw.drop first).take (last + 1 - first)).map alignMmap).filterMap (spaceOf start) ↔
      ∃ (k : Nat) (m : MmapEntry), first ≤ k ∧ k ≤ last ∧ raw[k]? = some m ∧
        spaceOf start (alignMmap m) = some p := by
  rw [List.mem_filterMap]
  constructor
  · rintro ⟨a, ha, hp⟩
    obtain ⟨m, hm, rfl⟩ := List.mem_map.mp ha
    obtain ⟨k, hf, hl, hk⟩ := mem_slice.mp hm
    exact ⟨k, m, hf, hl, hk, hp⟩
  · rintro ⟨k, m, hf, hl, hk, hp⟩
    exact ⟨alignMmap m, List.mem_map_of_mem (mem_slice.mpr ⟨k, hf, hl, hk⟩), hp⟩

/-! ## The range of an entry -/

theorem spaceOf_whole {start : Nat} (hav : m.available = true) (hb : m.stop < 2 ^ 64)
    (h : ¬m.Tiny) :
    spaceOf start (alignMmap m) =
      if up m.address + 2 * pageSize ≤ down m.stop then
        some (if up m.address < start ∧ start < down m.stop then (start, down m.stop)
          else (up m.address, down m.stop))
      else none := by
  obtain ⟨haddr, hlen⟩ := alignMmap_whole hav hb h
  have hle : up m.address ≤ down m.stop := Nat.le_of_not_lt h
  unfold spaceOf
  rw [available_alignMmap, mEnd_alignMmap hav hb, haddr, hlen]
  have hiff : (m.available = true ∧ down m.stop - up m.address ≥ 2 * pageSize) ↔
      up m.address + 2 * pageSize ≤ down m.stop := by
    rw [hav]
    simp only [true_and]
    omega
  simp only [hiff, gt_iff_lt]
  split
  next => split <;> rfl
  next => rfl

/-- An entry inside of a page gets a range that ends before it starts, or, in the very
last page, one that reaches from the start of free memory to that page. -/
theorem spaceOf_tiny (start : Nat) (hav : m.available = true) (hb : m.stop < 2 ^ 64)
    (h : m.Tiny) :
    ∃ p, spaceOf start (alignMmap m) = some p ∧ p.2 = down m.stop ∧
      (p.2 < p.1 ∨ p.1 ≤ start ∧ down m.stop = 2 ^ 64 - pageSize ∧
        2 ^ 64 - pageSize < m.address) := by
  obtain ⟨hlen, haddr⟩ := alignMmap_tiny hav hb h
  unfold spaceOf
  rw [if_pos ⟨(available_alignMmap m).trans hav, hlen⟩, mEnd_alignMmap hav hb]
  rcases haddr with haddr | ⟨haddr, hstop, hlt⟩
  · rw [haddr, if_neg (by omega)]
    refine ⟨_, rfl, rfl, Or.inl ?_⟩
    unfold pageSize
    simp only
    omega
  · rw [haddr]
    split
    · exact ⟨_, rfl, rfl, Or.inr ⟨Nat.le_refl _, hstop, hlt⟩⟩
    · exact ⟨_, rfl, rfl, Or.inr ⟨Nat.zero_le _, hstop, hlt⟩⟩

theorem roundUp_eq {a : Nat} (h : freeStart < down a) (ha : a < 2 ^ 64) :
    roundUp freeStart = up freeStart := by
  unfold roundUp up
  rw [Word.add_of_lt]
  unfold down pageSize at h
  unfold pageSize
  omega

/-- In a tame map, every range lies in the entry it comes from. -/
theorem Tame.range (ht : Tame raw freeStart) (hf : Firmware raw) {first last : Nat}
    (hw : Walk raw freeStart first last) {p : Nat × Nat} (hfirst : first ≤ k) (hlast : k ≤ last)
    (hk : raw[k]? = some m) (hp : spaceOf (roundUp freeStart) (alignMmap m) = some p) :
    m.available = true ∧ (p.1 % pageSize = 0 ∧ p.2 % pageSize = 0 ∧ p.1 ≤ p.2) ∧
      freeStart ≤ p.1 ∧ m.address ≤ p.1 ∧ p.2 ≤ m.stop := by
  have hav : m.available = true := by
    rw [← available_alignMmap]
    unfold spaceOf at hp
    split at hp
    next h => exact h.1
    next => cases hp
  have hb := hf.bounded_of_getElem? hk
  have hsel := (hw.first_le hk hav).mp hfirst
  have hwhole : ¬m.Tiny := fun h =>
    ht.no_tiny k m hk hav h hsel ((hw.le_last hk hav).mp hlast)
  rw [spaceOf_whole hav hb hwhole, roundUp_eq hsel hb] at hp
  have hstraddle := ht.no_straddle m (List.mem_of_getElem? hk) hav
  refine ⟨hav, ?_⟩
  split at hp
  next htwo =>
    have hp := (Option.some.inj hp).symm
    subst hp
    have hstraddle := hstraddle htwo
    unfold up down pageSize at *
    split <;> simp only <;> omega
  next => cases hp

/-- An entry of two whole pages reaches behind all entries before it. -/
theorem Firmware.reaches (hf : Firmware raw) (hk : raw[k]? = some m) (hav : m.available = true)
    (htwo : up m.address + 2 * pageSize ≤ down m.stop) : ¬m.Tiny ∧ Reaches raw k := by
  constructor
  · unfold MmapEntry.Tiny
    omega
  · refine ⟨k, m, Nat.le_refl k, hk, hav, fun i y hi hy _ => ?_⟩
    have hle := down_mono (hf.stop_le hy hk hi)
    unfold up down pageSize at htwo
    unfold down pageSize at hle ⊢
    omega

/-- A tame map gives ranges of free memory. -/
theorem Tame.covers (ht : Tame raw freeStart) (hf : Firmware raw) :
    ∃ ranges, (initializePhysicalAllocator (raw.map alignMmap) freeStart).map Prod.fst =
      some ranges ∧ Covers raw freeStart ranges := by
  rcases initialize_cases hf freeStart with ⟨-, hnone⟩ | ⟨first, last, hw, heq⟩
  · obtain ⟨m, hm, hav, hlt⟩ := ht.some_pages
    exact absurd (hnone m hm hav) (by omega)
  refine ⟨_, heq, ?_⟩
  constructor
  case aligned =>
    intro p hp
    obtain ⟨k, m, hfirst, hlast, hk, hp⟩ := mem_ranges.mp hp
    exact (ht.range hf hw hfirst hlast hk hp).2.1
  case above =>
    intro p hp
    obtain ⟨k, m, hfirst, hlast, hk, hp⟩ := mem_ranges.mp hp
    exact (ht.range hf hw hfirst hlast hk hp).2.2.1
  case inside =>
    intro p hp
    obtain ⟨k, m, hfirst, hlast, hk, hp⟩ := mem_ranges.mp hp
    obtain ⟨hav, -, -, hin⟩ := ht.range hf hw hfirst hlast hk hp
    exact ⟨m, List.mem_of_getElem? hk, hav, hin⟩
  case disjoint =>
    rw [List.pairwise_filterMap, List.pairwise_map]
    have hsub := (List.take_sublist (last + 1 - first) (raw.drop first)).trans
      (List.drop_sublist first raw)
    refine (hf.ordered.sublist hsub).imp_of_mem fun {a b} ha hb hle p hp q hq => ?_
    obtain ⟨i, hfi, hli, hi⟩ := mem_slice.mp ha
    obtain ⟨j, hfj, hlj, hj⟩ := mem_slice.mp hb
    have h1 := (ht.range hf hw hfi hli hi hp).2.2.2
    have h2 := (ht.range hf hw hfj hlj hj hq).2.2.2
    exact Or.inl (by omega)
  case complete =>
    intro m hm hav htwo
    obtain ⟨k, hk⟩ := List.mem_iff_getElem?.mp hm
    have hb := hf.bounded m hm
    have hsel : freeStart < down m.stop := by
      unfold up pageSize at htwo
      omega
    have hpages := Nat.le_trans (Nat.add_le_add_right (Nat.le_max_left _ (up freeStart)) _) htwo
    obtain ⟨hwhole, hreach⟩ := hf.reaches hk hav hpages
    have hp : spaceOf (roundUp freeStart) (alignMmap m) =
        some (if up m.address < up freeStart ∧ up freeStart < down m.stop then
          (up freeStart, down m.stop) else (up m.address, down m.stop)) := by
      rw [spaceOf_whole hav hb hwhole, if_pos (by omega), roundUp_eq hsel hb]
    refine ⟨_, mem_ranges.mpr ⟨k, m, (hw.first_le hk hav).mpr hsel,
      (hw.le_last hk hav).mpr hreach, hk, hp⟩, ?_⟩
    unfold up down pageSize at htwo ⊢
    split <;> simp only <;> omega

/-- An entry inside of a page that is walked over spoils the ranges. -/
theorem not_covers_of_tiny (hf : Firmware raw) {first last : Nat}
    (hw : Walk raw freeStart first last) (hk : raw[k]? = some m) (hav : m.available = true)
    (htiny : m.Tiny) (hsel : freeStart < down m.stop) (hreach : Reaches raw k) :
    ¬Covers raw freeStart ((((raw.drop first).take (last + 1 - first)).map alignMmap).filterMap
      (spaceOf (roundUp freeStart))) := by
  intro hc
  have hb := hf.bounded_of_getElem? hk
  obtain ⟨p, hp, hstop, hbad⟩ := spaceOf_tiny (roundUp freeStart) hav hb htiny
  have hmem := mem_ranges.mpr ⟨k, m, (hw.first_le hk hav).mpr hsel,
    (hw.le_last hk hav).mpr hreach, hk, hp⟩
  rcases hbad with hlt | ⟨hstart, hlast, haddr⟩
  · have := (hc.aligned p hmem).2.2
    omega
  · -- the range ends with the last page but one, which no available entry contains
    obtain ⟨x, hx, hxav, hxlo, hxhi⟩ := hc.inside p hmem
    obtain ⟨i, hi⟩ := List.mem_iff_getElem?.mp hx
    rcases Nat.lt_or_ge i k with hik | hki
    · obtain ⟨k', y, -, hy, -, hall⟩ := hreach
      have hlt := hall i x hik hi hxav
      have hby := hf.bounded_of_getElem? hy
      have hle := down_mono hxhi
      rw [hstop, hlast] at hle
      unfold down pageSize at hlt hle
      omega
    · have hle : m.address ≤ x.address := by
        rcases Nat.lt_or_eq_of_le hki with hlt | heq
        · have := hf.stop_le hk hi hlt
          unfold MmapEntry.stop at this
          omega
        · subst heq
          rw [hk] at hi
          cases hi
          exact Nat.le_refl _
      rw [roundUp_eq hsel hb] at hstart
      unfold up down pageSize at *
      omega

theorem not_covers_of_straddle (hf : Firmware raw) {first last : Nat}
    (hw : Walk raw freeStart first last) (hk : raw[k]? = some m) (hav : m.available = true)
    (htwo : up m.address + 2 * pageSize ≤ down m.stop) (heq : down m.stop = up freeStart)
    (hne : freeStart % pageSize ≠ 0) :
    ¬Covers raw freeStart ((((raw.drop first).take (last + 1 - first)).map alignMmap).filterMap
      (spaceOf (roundUp freeStart))) := by
  intro hc
  have hb := hf.bounded_of_getElem? hk
  have hsel : freeStart < down m.stop := by
    rw [heq]
    unfold up pageSize
    unfold pageSize at hne
    omega
  obtain ⟨hwhole, hreach⟩ := hf.reaches hk hav htwo
  have hp : spaceOf (roundUp freeStart) (alignMmap m) = some (up m.address, down m.stop) := by
    rw [spaceOf_whole hav hb hwhole, if_pos htwo, roundUp_eq hsel hb, if_neg (by omega)]
  have habove := hc.above _ (mem_ranges.mpr ⟨k, m, (hw.first_le hk hav).mpr hsel,
    (hw.le_last hk hav).mpr hreach, hk, hp⟩)
  rw [heq] at htwo
  unfold up pageSize at htwo habove
  simp only at habove
  omega

/-- The kernel creates its spaces over free memory, and over all of it, exactly if the
map is tame. -/
theorem covers_iff_tame (hf : Firmware raw) (freeStart : Nat) :
    (∃ ranges, (initializePhysicalAllocator (raw.map alignMmap) freeStart).map Prod.fst =
      some ranges ∧ Covers raw freeStart ranges) ↔ Tame raw freeStart := by
  constructor
  · rintro ⟨ranges, hinit, hc⟩
    rcases initialize_cases hf freeStart with ⟨hnone, -⟩ | ⟨first, last, hw, heq⟩
    · rw [hnone] at hinit
      cases hinit
    · rw [heq] at hinit
      cases hinit
      refine ⟨hw.selected, fun k m hk hav htiny hsel hreach => ?_, fun m hm hav htwo heq => ?_⟩
      · exact not_covers_of_tiny hf hw hk hav htiny hsel hreach hc
      · obtain ⟨k, hk⟩ := List.mem_iff_getElem?.mp hm
        by_contra hne
        exact not_covers_of_straddle hf hw hk hav htwo heq hne hc
  · exact fun ht => ht.covers hf

/-- A map with unaligned entries. -/
theorem covers_iff_tame_small :
    ∃ ranges, (initializePhysicalAllocator (List.map alignMmap
      [{ address := 0x100, length := 0x9FB00, available := true },
        { address := 0x9FC00, length := 0x60400, available := false },
        { address := 0x100000, length := 0x7EE0400, available := true }]) 0x2C7800).map Prod.fst =
        some ranges ∧
      Covers [{ address := 0x100, length := 0x9FB00, available := true },
        { address := 0x9FC00, length := 0x60400, available := false },
        { address := 0x100000, length := 0x7EE0400, available := true }] 0x2C7800 ranges := by
  refine (covers_iff_tame ⟨by decide, by decide⟩ 0x2C7800).mpr ⟨by decide, ?_, by decide⟩
  intro k m hk _ htiny
  have hnone : ∀ m ∈ [({ address := 0x100, length := 0x9FB00, available := true } : MmapEntry),
      { address := 0x9FC00, length := 0x60400, available := false },
      { address := 0x100000, length := 0x7EE0400, available := true }], ¬m.Tiny := by
    decide
  exact absurd htiny (hnone m (List.mem_of_getElem? hk))

/-- An available entry of 512 bytes between two others becomes a range of the wrong
order. -/
theorem tiny_entry_not_covered :
    ¬∀ (raw : List MmapEntry) (freeStart : Nat), Firmware raw → freeStart < 2 ^ 64 →
      (∃ m ∈ raw, m.available = true ∧ freeStart < m.stop) →
      ∃ ranges, (initializePhysicalAllocator (raw.map alignMmap) freeStart).map Prod.fst =
        some ranges ∧ Covers raw freeStart ranges := by
  intro h
  obtain ⟨ranges, hinit, hc⟩ := h
    [{ address := 0x100000, length := 0x400000, available := true },
      { address := 0x500100, length := 0x200, available := true },
      { address := 0x600000, length := 0x800000, available := true }] 0x200000
    ⟨by decide, by decide⟩ (by decide) (by decide)
  have heq : (initializePhysicalAllocator (List.map alignMmap
      [{ address := 0x100000, length := 0x400000, available := true },
        { address := 0x500100, length := 0x200, available := true },
        { address := 0x600000, length := 0x800000, available := true }]) 0x200000).map Prod.fst =
      some [(0x200000, 0x500000), (0x501000, 0x500000), (0x600000, 0xE00000)] := by
    decide
  rw [heq] at hinit
  cases hinit
  exact absurd (hc.aligned (0x501000, 0x500000) (by simp)).2.2 (by decide)

end Walk

end Beelzebub.Boot
