import Mathlib.Data.List.TakeWhile
import Beelzebub.Memory.Paging

/-!
# Fractal addressing

Entry 510 of a topmost table refers to the table itself, and entry 509 to the topmost table
of another address space.  A walk that goes through these entries runs out of levels early,
and arrives at a table where it would otherwise arrive at a page.

The windows of the source are 64-bit words, made with shifts and masks.  Read as four
indices, a window is some fractal entries followed by the leading indices of the address it
is for (`indices_getPml`).  That it shows the right table (`target_window`) and that it shows
no other (`getPml_inj`) are both read off these indices.
-/

namespace Beelzebub.Memory.Fractal

open PmlEntry Tables

/-! ## Windows -/

def localPml1Base : UInt64 :=
  (0xFFFF000000000000 : UInt64) + (UInt64.ofNat VmmArc.localFractalIndex <<< 39)
def localPml2Base : UInt64 := localPml1Base + (UInt64.ofNat VmmArc.localFractalIndex <<< 30)
def localPml3Base : UInt64 := localPml2Base + (UInt64.ofNat VmmArc.localFractalIndex <<< 21)
def localPml4Base : UInt64 := localPml3Base + (UInt64.ofNat VmmArc.localFractalIndex <<< 12)

def alienPml1Base : UInt64 :=
  (0xFFFF000000000000 : UInt64) + (UInt64.ofNat VmmArc.alienFractalIndex <<< 39)
def alienPml2Base : UInt64 := alienPml1Base + (UInt64.ofNat VmmArc.localFractalIndex <<< 30)
def alienPml3Base : UInt64 := alienPml2Base + (UInt64.ofNat VmmArc.localFractalIndex <<< 21)
/-- In the window onto the active topmost table, not in that onto the other's tables. -/
def alienPml4Base : UInt64 := localPml3Base + (UInt64.ofNat VmmArc.alienFractalIndex <<< 12)

def pmlIndex (shift addr : UInt64) : UInt16 := ((addr >>> shift) &&& 511).toUInt16

def getPml4Index : UInt64 → UInt16 := pmlIndex 39
def getPml3Index : UInt64 → UInt16 := pmlIndex 30
def getPml2Index : UInt64 → UInt16 := pmlIndex 21
def getPml1Index : UInt64 → UInt16 := pmlIndex 12

def window (base shift mask addr : UInt64) : UInt64 := base + ((addr >>> shift) &&& mask)

def getLocalPml4 : UInt64 := localPml4Base
def getLocalPml4Ex (_ : UInt64) : UInt64 := localPml4Base
def getLocalPml3 : UInt64 → UInt64 := window localPml3Base 27 0x00000000001FF000
def getLocalPml2 : UInt64 → UInt64 := window localPml2Base 18 0x000000003FFFF000
def getLocalPml1 : UInt64 → UInt64 := window localPml1Base 9 0x0000007FFFFFF000

def getAlienPml4 : UInt64 := alienPml4Base
def getAlienPml4Ex (_ : UInt64) : UInt64 := alienPml4Base
def getAlienPml3 : UInt64 → UInt64 := window alienPml3Base 27 0x00000000001FF000
def getAlienPml2 : UInt64 → UInt64 := window alienPml2Base 18 0x000000003FFFF000
def getAlienPml1 : UInt64 → UInt64 := window alienPml1Base 9 0x0000007FFFFFF000

/-- `operator []` of a table, whose entries are of 8 bytes. -/
def entryAt (pml : UInt64) (ind : UInt16) : UInt64 := pml + 8 * ind.toUInt64

def getLocalPml4Entry (addr : UInt64) : UInt64 := entryAt getLocalPml4 (getPml4Index addr)
def getLocalPml3Entry (addr : UInt64) : UInt64 := entryAt (getLocalPml3 addr) (getPml3Index addr)
def getLocalPml2Entry (addr : UInt64) : UInt64 := entryAt (getLocalPml2 addr) (getPml2Index addr)
def getLocalPml1Entry (addr : UInt64) : UInt64 := entryAt (getLocalPml1 addr) (getPml1Index addr)

def getAlienPml4Entry (addr : UInt64) : UInt64 := entryAt getAlienPml4 (getPml4Index addr)
def getAlienPml3Entry (addr : UInt64) : UInt64 := entryAt (getAlienPml3 addr) (getPml3Index addr)
def getAlienPml2Entry (addr : UInt64) : UInt64 := entryAt (getAlienPml2 addr) (getPml2Index addr)
def getAlienPml1Entry (addr : UInt64) : UInt64 := entryAt (getAlienPml1 addr) (getPml1Index addr)

/-- Whose tables a window shows: those of the active address space, or of the other one. -/
inductive Map where
  | active
  | alien
deriving DecidableEq, Repr

inductive Level where
  | pml1
  | pml2
  | pml3
  | pml4
deriving DecidableEq, Repr

/-- The number of levels below. -/
def Level.height : Level → Nat
  | .pml1 => 0
  | .pml2 => 1
  | .pml3 => 2
  | .pml4 => 3

def getPml : Map → Level → UInt64 → UInt64
  | .active, .pml4 => getLocalPml4Ex
  | .active, .pml3 => getLocalPml3
  | .active, .pml2 => getLocalPml2
  | .active, .pml1 => getLocalPml1
  | .alien, .pml4 => getAlienPml4Ex
  | .alien, .pml3 => getAlienPml3
  | .alien, .pml2 => getAlienPml2
  | .alien, .pml1 => getAlienPml1

def getPmlIndex : Level → UInt64 → UInt16
  | .pml4 => getPml4Index
  | .pml3 => getPml3Index
  | .pml2 => getPml2Index
  | .pml1 => getPml1Index

def getPmlEntry : Map → Level → UInt64 → UInt64
  | .active, .pml4 => getLocalPml4Entry
  | .active, .pml3 => getLocalPml3Entry
  | .active, .pml2 => getLocalPml2Entry
  | .active, .pml1 => getLocalPml1Entry
  | .alien, .pml4 => getAlienPml4Entry
  | .alien, .pml3 => getAlienPml3Entry
  | .alien, .pml2 => getAlienPml2Entry
  | .alien, .pml1 => getAlienPml1Entry

theorem getPmlEntry_eq (m : Map) (l : Level) (addr : UInt64) :
    getPmlEntry m l addr = entryAt (getPml m l addr) (getPmlIndex l addr) := by
  cases m <;> cases l <;> rfl

/-! ## The walk of the processor -/

/-- Bits 47 to 63 agree. -/
def Canonical (vaddr : Nat) : Prop :=
  vaddr < VmmArc.lowerHalfEnd ∨ VmmArc.higherHalfStart ≤ vaddr ∧ vaddr < 2 ^ 64

instance (vaddr : Nat) : Decidable (Canonical vaddr) := inferInstanceAs (Decidable (_ ∨ _))

/-- The bytes that an entry of a table with so many levels below is for. -/
def span (n : Nat) : Nat := 2 ^ (12 + 9 * n)

def indexAt (n vaddr : Nat) : Nat := vaddr / span n % 512

/-- The indices of an address from some level on down. -/
def indices (vaddr : Nat) : Nat → List Nat
  | 0 => [indexAt 0 vaddr]
  | n + 1 => indexAt (n + 1) vaddr :: indices vaddr n

/-- What a walk reads and where it arrives, in physical addresses. -/
structure Walk where
  /-- From the topmost table on. -/
  entries : List Nat
  target : Option Nat
deriving DecidableEq, Repr

/-- The walk from a table with so many levels below.  Bit 7 is reserved in a topmost table,
and stands for something else in a table of the lowest level. -/
def walkFrom (mem : Nat → Nat → PmlEntry) (vaddr : Nat) : Nat → Nat → Walk
  | 0, f =>
    let e := mem f (indexAt 0 vaddr)
    ⟨[f + 8 * indexAt 0 vaddr],
      if getPresent e then some (getAddress e + vaddr % span 0) else none⟩
  | n + 1, f =>
    let e := mem f (indexAt (n + 1) vaddr)
    let here := f + 8 * indexAt (n + 1) vaddr
    if getPresent e = false then ⟨[here], none⟩
    else if getPageSize e then
      ⟨[here], if n + 1 = 3 then none
        else some (e % 2 ^ 52 / span (n + 1) * span (n + 1) + vaddr % span (n + 1))⟩
    else
      let below := walkFrom mem vaddr n (getAddress e)
      ⟨here :: below.entries, below.target⟩

/-- What the processor makes of an address under a topmost table. -/
def walk (mem : Nat → Nat → PmlEntry) (root vaddr : Nat) : Walk :=
  if Canonical vaddr then walkFrom mem vaddr 3 root else ⟨[], none⟩

/-- The physical address of the entry that the walk uses at a level. -/
def Walk.entry (w : Walk) (l : Level) : Option Nat := w.entries[3 - l.height]?

section Walk

variable {mem : Nat → Nat → PmlEntry} {vaddr : Nat}

theorem link_eq_some {e : PmlEntry} {f : Nat} (h : link e = some f) :
    getPresent e = true ∧ getPageSize e = false ∧ getAddress e = f := by
  unfold link at h
  split at h
  next he => exact ⟨he.1, Bool.eq_false_iff.mpr he.2, Option.some.inj h⟩
  next => exact nomatch h

/-- The walk goes on below an entry that leads to a table. -/
theorem walkFrom_link {n f g : Nat} (h : link (mem f (indexAt (n + 1) vaddr)) = some g) :
    walkFrom mem vaddr (n + 1) f =
      ⟨(f + 8 * indexAt (n + 1) vaddr) :: (walkFrom mem vaddr n g).entries,
        (walkFrom mem vaddr n g).target⟩ := by
  obtain ⟨hp, hs, rfl⟩ := link_eq_some h
  dsimp only [walkFrom]
  rw [if_neg (by simp [hp]), if_neg (by simp [hs])]

/-- It ends at any other entry. -/
theorem entries_walkFrom_of_none {n f : Nat} (h : link (mem f (indexAt (n + 1) vaddr)) = none) :
    (walkFrom mem vaddr (n + 1) f).entries = [f + 8 * indexAt (n + 1) vaddr] := by
  dsimp only [walkFrom]
  by_cases hp : getPresent (mem f (indexAt (n + 1) vaddr)) = true
  · by_cases hs : getPageSize (mem f (indexAt (n + 1) vaddr)) = true
    · rw [if_neg (by simp [hp]), if_pos hs]
    · rw [link, if_pos ⟨hp, hs⟩] at h
      cases h
  · rw [if_pos (Bool.eq_false_iff.mpr hp)]

theorem entries_walkFrom_zero (n f : Nat) :
    (walkFrom mem vaddr n f).entries[0]? = some (f + 8 * indexAt n vaddr) := by
  cases n with
  | zero => rfl
  | succ n =>
      cases h : link (mem f (indexAt (n + 1) vaddr)) with
      | none => rw [entries_walkFrom_of_none h, List.getElem?_cons_zero]
      | some g => rw [walkFrom_link h, List.getElem?_cons_zero]

/-- The walk reads one entry at each level, as long as the entries above lead there. -/
theorem entries_walkFrom {n f k : Nat} (hk : k ≤ n) :
    (walkFrom mem vaddr n f).entries[k]? =
      (Radix.table link mem f ((indices vaddr n).take k)).map (· + 8 * indexAt (n - k) vaddr) := by
  induction n generalizing f k with
  | zero =>
      obtain rfl := Nat.le_zero.mp hk
      rfl
  | succ n ih =>
      cases k with
      | zero => exact entries_walkFrom_zero (n + 1) f
      | succ k =>
          rw [indices, List.take_succ_cons, Radix.table_cons, Nat.add_sub_add_right]
          cases h : link (mem f (indexAt (n + 1) vaddr)) with
          | none => simp [entries_walkFrom_of_none h]
          | some g =>
              rw [walkFrom_link h, List.getElem?_cons_succ, Option.bind_some]
              exact ih (Nat.le_of_succ_le_succ hk)

/-- Where all entries on the way lead to tables, the walk takes the last of them for a page. -/
theorem target_walkFrom {n f t : Nat} (h : Radix.table link mem f (indices vaddr n) = some t) :
    (walkFrom mem vaddr n f).target = some (t + vaddr % span 0) := by
  induction n generalizing f with
  | zero =>
      obtain ⟨g, hg, hnil⟩ := Option.bind_eq_some_iff.mp h
      obtain rfl := Option.some.inj hnil
      obtain ⟨hp, -, rfl⟩ := link_eq_some hg
      exact if_pos hp
  | succ n ih =>
      obtain ⟨g, hg, hrest⟩ := Option.bind_eq_some_iff.mp h
      rw [walkFrom_link hg]
      exact ih hrest

end Walk

/-! ## The indices of a window -/

/-- The canonical address in the higher half with these indices. -/
def ofIndices (i j k l : Nat) : Nat :=
  0xFFFF000000000000 + i * 2 ^ 39 + j * 2 ^ 30 + k * 2 ^ 21 + l * 2 ^ 12

theorem indices_three (vaddr : Nat) :
    indices vaddr 3 = [indexAt 3 vaddr, indexAt 2 vaddr, indexAt 1 vaddr, indexAt 0 vaddr] := rfl

theorem indices_ofIndices {i j k l d : Nat} (hi : i < 512) (hj : j < 512) (hk : k < 512)
    (hl : l < 512) (hd : d < 4096) : indices (ofIndices i j k l + d) 3 = [i, j, k, l] := by
  have h3 : indexAt 3 (ofIndices i j k l + d) = i := by
    unfold indexAt span ofIndices
    omega
  have h2 : indexAt 2 (ofIndices i j k l + d) = j := by
    unfold indexAt span ofIndices
    omega
  have h1 : indexAt 1 (ofIndices i j k l + d) = k := by
    unfold indexAt span ofIndices
    omega
  have h0 : indexAt 0 (ofIndices i j k l + d) = l := by
    unfold indexAt span ofIndices
    omega
  rw [indices_three, h3, h2, h1, h0]

theorem indexAt_lt (n vaddr : Nat) : indexAt n vaddr < 512 := Nat.mod_lt _ (by decide)

/-- A mask that starts at bit 12 cuts a run of bits out. -/
theorem and_mask (x j : Nat) : x &&& (2 ^ j - 1) <<< 12 = (x / 2 ^ 12 % 2 ^ j) <<< 12 := by
  refine Nat.eq_of_testBit_eq fun i => ?_
  rw [Nat.testBit_and, Nat.testBit_shiftLeft, Nat.testBit_shiftLeft, Nat.testBit_two_pow_sub_one,
    Nat.testBit_mod_two_pow, Nat.testBit_div_two_pow]
  by_cases hi : 12 ≤ i
  · rw [Nat.sub_add_cancel hi, Bool.and_comm, Bool.and_assoc]
  · simp [hi]

theorem toNat_window {base shift mask : UInt64} {s j : Nat} (hshift : shift.toNat = s)
    (hs : s < 64) (hmask : mask.toNat = (2 ^ j - 1) <<< 12)
    (hfit : base.toNat + 2 ^ j * 2 ^ 12 ≤ 2 ^ 64) (addr : UInt64) :
    (window base shift mask addr).toNat =
      base.toNat + addr.toNat / 2 ^ (s + 12) % 2 ^ j * 2 ^ 12 := by
  have hlt : addr.toNat / 2 ^ (s + 12) % 2 ^ j < 2 ^ j := Nat.mod_lt _ (Nat.two_pow_pos j)
  rw [window, UInt64.toNat_add, UInt64.toNat_and, UInt64.toNat_shiftRight, hshift, hmask,
    Nat.mod_eq_of_lt hs, and_mask, Nat.shiftRight_eq_div_pow, Nat.div_div_eq_div_mul, ← Nat.pow_add,
    Nat.shiftLeft_eq]
  refine Nat.mod_eq_of_lt (Nat.lt_of_lt_of_le (Nat.add_lt_add_left ?_ _) hfit)
  exact Nat.mul_lt_mul_of_pos_right hlt (by decide)

theorem toNat_pmlIndex {shift : UInt64} {s : Nat} (hshift : shift.toNat = s) (hs : s < 64)
    (addr : UInt64) : (pmlIndex shift addr).toNat = addr.toNat / 2 ^ s % 512 := by
  have hlt : addr.toNat / 2 ^ s % 512 < 512 := Nat.mod_lt _ (by decide)
  rw [pmlIndex, UInt64.toNat_toUInt16, UInt64.toNat_and, UInt64.toNat_shiftRight, hshift,
    Nat.mod_eq_of_lt hs, Nat.shiftRight_eq_div_pow]
  show (addr.toNat / 2 ^ s &&& 2 ^ 9 - 1) % 2 ^ 16 = _
  rw [Nat.and_two_pow_sub_one_eq_mod]
  exact Nat.mod_eq_of_lt (Nat.lt_trans hlt (by decide))

/-- The fractal entries that a window goes through. -/
def lead : Map → Level → List Nat
  | .active, .pml1 => [510]
  | .active, .pml2 => [510, 510]
  | .active, .pml3 => [510, 510, 510]
  | .active, .pml4 => [510, 510, 510, 510]
  | .alien, .pml1 => [509]
  | .alien, .pml2 => [509, 510]
  | .alien, .pml3 => [509, 510, 510]
  | .alien, .pml4 => [510, 510, 510, 509]

/-- The indices on the way to the table at a level. -/
def leading (l : Level) (vaddr : Nat) : List Nat := (indices vaddr 3).take (3 - l.height)

section Base

variable {base : UInt64} {i j k : Nat} (addr : UInt64)

theorem toNat_pml1Window (hi : i < 512) (h : base.toNat = ofIndices i 0 0 0) :
    (window base 9 0x0000007FFFFFF000 addr).toNat =
      ofIndices i (indexAt 3 addr.toNat) (indexAt 2 addr.toNat) (indexAt 1 addr.toNat) := by
  unfold ofIndices at h
  rw [toNat_window (s := 9) (j := 27) rfl (by decide) rfl (by omega), h]
  unfold ofIndices indexAt span
  omega

theorem toNat_pml2Window (hi : i < 512) (hj : j < 512) (h : base.toNat = ofIndices i j 0 0) :
    (window base 18 0x000000003FFFF000 addr).toNat =
      ofIndices i j (indexAt 3 addr.toNat) (indexAt 2 addr.toNat) := by
  unfold ofIndices at h
  rw [toNat_window (s := 18) (j := 18) rfl (by decide) rfl (by omega), h]
  unfold ofIndices indexAt span
  omega

theorem toNat_pml3Window (hi : i < 512) (hj : j < 512) (hk : k < 512)
    (h : base.toNat = ofIndices i j k 0) :
    (window base 27 0x00000000001FF000 addr).toNat = ofIndices i j k (indexAt 3 addr.toNat) := by
  unfold ofIndices at h
  rw [toNat_window (s := 27) (j := 9) rfl (by decide) rfl (by omega), h]
  unfold ofIndices indexAt span
  omega

end Base

/-- A window is the address with the indices of some fractal entries, and then those of the
address it is for. -/
theorem toNat_getPml (m : Map) (l : Level) (addr : UInt64) :
    ∃ i j k n, (509 ≤ i ∧ i ≤ 510) ∧ (j < 512 ∧ k < 512 ∧ n < 512) ∧
      (getPml m l addr).toNat = ofIndices i j k n ∧
      lead m l ++ leading l addr.toNat = [i, j, k, n] := by
  have h1 := indexAt_lt 1 addr.toNat
  have h2 := indexAt_lt 2 addr.toNat
  have h3 := indexAt_lt 3 addr.toNat
  have h : 510 < 512 := by decide
  have h' : 509 < 512 := by decide
  cases m with
  | active =>
      cases l with
      | pml1 => exact ⟨510, _, _, _, by decide, ⟨h3, h2, h1⟩, toNat_pml1Window addr h rfl, rfl⟩
      | pml2 => exact ⟨510, _, _, _, by decide, ⟨h, h3, h2⟩, toNat_pml2Window addr h h rfl, rfl⟩
      | pml3 => exact ⟨510, _, _, _, by decide, ⟨h, h, h3⟩, toNat_pml3Window addr h h h rfl, rfl⟩
      | pml4 => exact ⟨510, 510, 510, 510, by decide, by decide, rfl, rfl⟩
  | alien =>
      cases l with
      | pml1 => exact ⟨509, _, _, _, by decide, ⟨h3, h2, h1⟩, toNat_pml1Window addr h' rfl, rfl⟩
      | pml2 => exact ⟨509, _, _, _, by decide, ⟨h, h3, h2⟩, toNat_pml2Window addr h' h rfl, rfl⟩
      | pml3 =>
          exact ⟨509, _, _, _, by decide, ⟨h, h, h3⟩, toNat_pml3Window addr h' h h rfl, rfl⟩
      | pml4 => exact ⟨510, 510, 510, 509, by decide, by decide, rfl, rfl⟩

/-- A window goes through fractal entries, and then as the address does. -/
theorem indices_getPml (m : Map) (l : Level) (addr : UInt64) {d : Nat} (hd : d < 4096) :
    indices ((getPml m l addr).toNat + d) 3 = lead m l ++ leading l addr.toNat := by
  obtain ⟨i, j, k, n, ⟨-, hi⟩, ⟨hj, hk, hn⟩, h, hlist⟩ := toNat_getPml m l addr
  rw [h, hlist]
  exact indices_ofIndices (by omega) hj hk hn hd

/-- Windows are pages of the part of the address space that is kept for them. -/
theorem getPml_bounds (m : Map) (l : Level) (addr : UInt64) :
    VmmArc.fractalStart ≤ (getPml m l addr).toNat ∧
      (getPml m l addr).toNat + pageSize ≤ VmmArc.fractalEnd ∧
      (getPml m l addr).toNat % pageSize = 0 := by
  obtain ⟨i, j, k, n, ⟨hlow, hhigh⟩, ⟨hj, hk, hn⟩, h, -⟩ := toNat_getPml m l addr
  rw [h]
  unfold VmmArc.fractalEnd VmmArc.fractalStart VmmArc.alienFractalIndex ofIndices pageSize
  omega

theorem toNat_getPmlIndex (l : Level) (addr : UInt64) :
    (getPmlIndex l addr).toNat = indexAt l.height addr.toNat := by
  cases l with
  | pml1 => exact toNat_pmlIndex (s := 12) rfl (by decide) addr
  | pml2 => exact toNat_pmlIndex (s := 21) rfl (by decide) addr
  | pml3 => exact toNat_pmlIndex (s := 30) rfl (by decide) addr
  | pml4 => exact toNat_pmlIndex (s := 39) rfl (by decide) addr

theorem toNat_getPmlEntry (m : Map) (l : Level) (addr : UInt64) :
    (getPmlEntry m l addr).toNat =
      (getPml m l addr).toNat + 8 * indexAt l.height addr.toNat := by
  have hbounds := getPml_bounds m l addr
  have hindex := indexAt_lt l.height addr.toNat
  unfold VmmArc.fractalEnd VmmArc.fractalStart VmmArc.alienFractalIndex pageSize at hbounds
  rw [getPmlEntry_eq, entryAt, UInt64.toNat_add, UInt64.toNat_mul, UInt16.toNat_toUInt64,
    toNat_getPmlIndex, show UInt64.toNat 8 = 8 from rfl]
  omega

/-! ## What windows show -/

/-- Entry 510 refers to the table itself. -/
def IsPml4 (mem : Nat → Nat → PmlEntry) (f : Nat) : Prop :=
  link (mem f VmmArc.localFractalIndex) = some f

instance (mem : Nat → Nat → PmlEntry) (f : Nat) : Decidable (IsPml4 mem f) :=
  inferInstanceAs (Decidable (_ = _))

/-- A window shows tables below this topmost table.  Two of the windows onto another address
space go through entry 510 of its topmost table, which is missing while that is being made. -/
def InView (mem : Nat → Nat → PmlEntry) (root : Nat) : Map → Level → Nat → Prop
  | .active, _, f => f = root
  | .alien, l, f =>
    link (mem root VmmArc.alienFractalIndex) = some f ∧ (l = .pml2 ∨ l = .pml3 → IsPml4 mem f)

section Shown

variable {mem : Nat → Nat → PmlEntry} {root top : Nat} {m : Map} {l : Level}

theorem table_lead (h : IsPml4 mem root) (hview : InView mem root m l top) :
    Radix.table link mem root (lead m l) = some top := by
  have h1 : link (mem root 510) = some root := h
  cases m with
  | active =>
      obtain rfl : top = root := hview
      cases l <;> simp [lead, Radix.table_cons, h1]
  | alien =>
      obtain ⟨h2, h3⟩ := hview
      have h2 : link (mem root 509) = some top := h2
      cases l with
      | pml4 => simp [lead, Radix.table_cons, h1, h2]
      | pml1 => simp [lead, Radix.table_cons, h2]
      | pml2 | pml3 =>
          have h3 : link (mem top 510) = some top := h3 (by simp)
          simp [lead, Radix.table_cons, h2, h3]

/-- A window shows the table that the address leads to. -/
theorem target_window (h : IsPml4 mem root) (hview : InView mem root m l top) {addr : UInt64}
    {f d : Nat} (hd : d < 4096)
    (hf : Radix.table link mem top (leading l addr.toNat) = some f) :
    (walk mem root ((getPml m l addr).toNat + d)).target = some (f + d) := by
  obtain ⟨hlow, hhigh, haligned⟩ := getPml_bounds m l addr
  unfold VmmArc.fractalEnd VmmArc.fractalStart VmmArc.alienFractalIndex pageSize at *
  have hcanonical : Canonical ((getPml m l addr).toNat + d) := by
    right
    unfold VmmArc.higherHalfStart
    omega
  have hoffset : ((getPml m l addr).toNat + d) % span 0 = d := by
    unfold span
    omega
  have htable : Radix.table link mem root (indices ((getPml m l addr).toNat + d) 3) = some f := by
    rw [indices_getPml m l addr hd, Radix.table_append, table_lead h hview, Option.bind_some, hf]
  rw [walk, if_pos hcanonical, target_walkFrom htable, hoffset]

/-- The entry that the walk uses at a level is in the table that the address leads to. -/
theorem entry_walk {vaddr : Nat} (h : Canonical vaddr) (l : Level) :
    (walk mem root vaddr).entry l =
      (Radix.table link mem root (leading l vaddr)).map (· + 8 * indexAt l.height vaddr) := by
  have hl : 3 - (3 - l.height) = l.height := by cases l <;> rfl
  rw [walk, if_pos h, Walk.entry, entries_walkFrom (Nat.sub_le 3 l.height), hl]
  rfl

/-- The address of an entry leads to the entry that the walk of the processor uses. -/
theorem target_getPmlEntry (h : IsPml4 mem root) (hview : InView mem root m l top)
    {addr : UInt64} {p : Nat} (hcanonical : Canonical addr.toNat)
    (hp : (walk mem top addr.toNat).entry l = some p) :
    (walk mem root (getPmlEntry m l addr).toNat).target = some p := by
  rw [entry_walk hcanonical] at hp
  obtain ⟨f, hf, rfl⟩ := Option.map_eq_some_iff.mp hp
  have hindex := indexAt_lt l.height addr.toNat
  rw [toNat_getPmlEntry]
  exact target_window h hview (by omega) hf

end Shown

/-! ## Windows are apart -/

/-- Outside the part of the address space that is kept for windows. -/
def Outside (vaddr : Nat) : Prop :=
  ¬(VmmArc.fractalStart ≤ vaddr ∧ vaddr < VmmArc.fractalEnd)

instance (vaddr : Nat) : Decidable (Outside vaddr) := inferInstanceAs (Decidable (¬_))

/-- The translated bits of an address that choose the table at a level. -/
def leadingBits (l : Level) (vaddr : Nat) : Nat := vaddr % 2 ^ 48 / span (l.height + 1)

def isFractalIndex (i : Nat) : Bool :=
  i == VmmArc.localFractalIndex || i == VmmArc.alienFractalIndex

theorem isFractalIndex_indexAt {vaddr : Nat} (h : Canonical vaddr) (hout : Outside vaddr) :
    isFractalIndex (indexAt 3 vaddr) = false := by
  unfold Canonical VmmArc.lowerHalfEnd VmmArc.higherHalfStart at h
  unfold Outside VmmArc.fractalEnd VmmArc.fractalStart VmmArc.alienFractalIndex at hout
  rw [isFractalIndex, Bool.or_eq_false_iff, beq_eq_false_iff_ne, beq_eq_false_iff_ne]
  unfold VmmArc.localFractalIndex VmmArc.alienFractalIndex indexAt span
  omega

theorem leading_eq_iff {l : Level} {v w : Nat} :
    leading l v = leading l w ↔ leadingBits l v = leadingBits l w := by
  cases l with
  | pml4 =>
      have hzero : ∀ u, leadingBits .pml4 u = 0 := fun u =>
        Nat.div_eq_of_lt (Nat.mod_lt u (by decide))
      exact iff_of_true rfl ((hzero v).trans (hzero w).symm)
  | pml1 | pml2 | pml3 =>
      simp only [leading, indices_three, Level.height, List.take_succ_cons, List.take_zero,
        List.cons.injEq, and_true, leadingBits, indexAt, span]
      omega

/-- The fractal entries of a window end where the indices of the address start. -/
theorem takeWhile_lead (m : Map) (l : Level) {vaddr : Nat} (h : Canonical vaddr)
    (hout : Outside vaddr) :
    (lead m l ++ leading l vaddr).takeWhile isFractalIndex = lead m l := by
  have hlead : ∀ i ∈ lead m l, isFractalIndex i = true := by
    cases m <;> cases l <;> decide
  have hleading : (leading l vaddr).takeWhile isFractalIndex = [] := by
    have h3 := isFractalIndex_indexAt h hout
    cases l <;> simp [leading, indices_three, Level.height, h3]
  rw [List.takeWhile_append_of_pos hlead, hleading, List.append_nil]

theorem lead_inj {m m' : Map} {l l' : Level} (h : lead m l = lead m' l') : m = m' ∧ l = l' := by
  revert h
  cases m <;> cases l <;> cases m' <;> cases l' <;> decide

/-- Windows of different address spaces, levels or leading bits are different. -/
theorem getPml_inj {m m' : Map} {l l' : Level} {addr addr' : UInt64}
    (h : Canonical addr.toNat) (hout : Outside addr.toNat)
    (h' : Canonical addr'.toNat) (hout' : Outside addr'.toNat)
    (heq : getPml m l addr = getPml m' l' addr') :
    m = m' ∧ l = l' ∧ leadingBits l addr.toNat = leadingBits l' addr'.toNat := by
  have hlists : lead m l ++ leading l addr.toNat = lead m' l' ++ leading l' addr'.toNat := by
    rw [← indices_getPml m l addr (by decide : 0 < 4096), heq,
      indices_getPml m' l' addr' (by decide)]
  have hlead : lead m l = lead m' l' := by
    rw [← takeWhile_lead m l h hout, hlists, takeWhile_lead m' l' h' hout']
  obtain ⟨rfl, rfl⟩ := lead_inj hlead
  exact ⟨rfl, rfl, leading_eq_iff.mp (List.append_cancel_left hlists)⟩

/-- A window depends on the leading bits of the address alone. -/
theorem getPml_congr (m : Map) (l : Level) {addr addr' : UInt64}
    (h : leadingBits l addr.toNat = leadingBits l addr'.toNat) :
    getPml m l addr = getPml m l addr' := by
  obtain ⟨i, j, k, n, -, -, heq, hlist⟩ := toNat_getPml m l addr
  obtain ⟨i', j', k', n', -, -, heq', hlist'⟩ := toNat_getPml m l addr'
  rw [← leading_eq_iff.mpr h, hlist] at hlist'
  cases hlist'
  exact UInt64.toNat_inj.mp (heq.trans heq'.symm)

/-- Fractal addressing: the address of the entry for an address, in the window for it, leads to
the entry that the walk of that address uses, and each window has its own table. -/
theorem fractal_sound {mem : Nat → Nat → PmlEntry} {root top : Nat} (h : IsPml4 mem root)
    {m : Map} {l : Level} (hview : InView mem root m l top) {addr : UInt64}
    (hcanonical : Canonical addr.toNat) (hout : Outside addr.toNat) :
    (∀ p, (walk mem top addr.toNat).entry l = some p →
      (walk mem root (getPmlEntry m l addr).toNat).target = some p) ∧
    ∀ m' l' addr', Canonical (UInt64.toNat addr') → Outside (UInt64.toNat addr') →
      (getPml m l addr = getPml m' l' addr' ↔
        m = m' ∧ l = l' ∧ leadingBits l addr.toNat = leadingBits l' addr'.toNat) := by
  refine ⟨fun p hp => target_getPmlEntry h hview hcanonical hp, fun m' l' addr' h' hout' => ?_⟩
  constructor
  · intro heq
    exact getPml_inj hcanonical hout h' hout' heq
  · rintro ⟨rfl, rfl, hbits⟩
    exact getPml_congr m l hbits

/-- Two topmost tables, at 0x1000 and 0x2000; the other one leads to a lowest table. -/
def sampleTables (f i : Nat) : PmlEntry :=
  if i = 510 then table f
  else if f = 0x1000 ∧ i = 509 then table 0x2000
  else if 0x2000 ≤ f ∧ i = 0 then table (f + 0x1000)
  else 0

/-- The lowest table for the address 0x1000, as the first address space sees the other one's. -/
theorem fractal_sound_sample :
    (walk sampleTables 0x1000 (getPmlEntry .alien .pml1 0x1000).toNat).target = some 0x5008 ∧
      getPml .alien .pml1 0x1000 ≠ getPml .active .pml1 0x1000 := by
  have h := @fractal_sound sampleTables 0x1000 0x2000 (by decide +kernel) .alien .pml1
    ⟨by decide +kernel, fun _ => by decide +kernel⟩ 0x1000 (by decide) (by decide)
  refine ⟨h.1 0x5008 (by decide +kernel), fun heq => ?_⟩
  have hmap := ((h.2 .active .pml1 0x1000 (by decide) (by decide)).mp heq).1
  exact absurd hmap (by decide)

/-! ## The tables of other address spaces -/

/-- `Pml4Entry`, for a table that userland may not look at. -/
def pml4Entry (pml3_paddr : Nat) (xd : Bool) : PmlEntry :=
  make pml3_paddr true true false false false xd

/-- `Alienate`. -/
def alienate (mem : Nat → Nat → PmlEntry) (root pagingTable : Nat) (nx : Bool) :
    Nat → Nat → PmlEntry :=
  Radix.store mem root VmmArc.alienFractalIndex (pml4Entry pagingTable nx)

/-- The entries that `Initialize` gives a frame that it took for a new topmost table.  It stores
them in the window of the active address space. -/
def initializeTables (mem : Nat → Nat → PmlEntry) (root pagingTable : Nat) (nx : Bool) :
    Nat → Nat → PmlEntry :=
  let mem := alienate mem root pagingTable nx
  Function.update mem pagingTable fun i =>
    if i < 256 then 0
    else if i < VmmArc.alienFractalIndex then mem root i
    else if i = VmmArc.localFractalIndex then pml4Entry pagingTable nx
    else if i = 511 then mem root i
    else mem pagingTable i

theorem link_pml4Entry {f : Nat} (hf : IsFrame f) (xd : Bool) : link (pml4Entry f xd) = some f := by
  obtain ⟨hp, -, -, hs, -⟩ := make_bits f true true false false false xd
  obtain ⟨haligned, hbound⟩ := hf
  rw [link, if_pos ⟨hp, by simp [pml4Entry, hs]⟩, pml4Entry, getAddress_make]
  unfold pageSize at *
  congr 1
  omega

section Alienate

variable {mem : Nat → Nat → PmlEntry} {root pagingTable : Nat}

theorem isPml4_alienate {f : Nat} (hf : IsPml4 mem f) (nx : Bool) :
    IsPml4 (alienate mem root pagingTable nx) f := by
  have hne : ¬(f = root ∧ VmmArc.localFractalIndex = VmmArc.alienFractalIndex) := fun h =>
    absurd h.2 (by decide)
  rw [IsPml4, alienate, Radix.store_of_ne hne]
  exact hf

/-- The tables of the process are in view, and all of them if its topmost table is finished. -/
theorem inView_alienate (hframe : IsFrame pagingTable) (nx : Bool) {l : Level}
    (hl : l = .pml2 ∨ l = .pml3 → IsPml4 mem pagingTable) :
    InView (alienate mem root pagingTable nx) root .alien l pagingTable := by
  constructor
  · rw [alienate, Radix.store_self]
    exact link_pml4Entry hframe nx
  · intro hmiddle
    exact isPml4_alienate (hl hmiddle) nx

/-- A new topmost table is finished, and the active one still is. -/
theorem isPml4_initializeTables (hframe : IsFrame pagingTable) (nx : Bool) {f : Nat}
    (hf : f = pagingTable ∨ IsPml4 mem f) :
    IsPml4 (initializeTables mem root pagingTable nx) f := by
  unfold IsPml4 initializeTables
  rw [Function.update_apply]
  split
  next heq =>
    subst heq
    exact link_pml4Entry hframe nx
  next hne => exact isPml4_alienate (hf.resolve_left hne) nx

end Alienate

/-! ## Windows as frames -/

section Frames

variable {t : Tables} {root vaddr f : Nat}

/-- The frames that stand for windows in the model of page tables are those that the windows
show. -/
theorem pml3p_eq (h : Radix.table link t.mem root (leading .pml3 vaddr) = some f) :
    t.pml3p root vaddr = f := by
  obtain ⟨g, hg, hnil⟩ := Option.bind_eq_some_iff.mp h
  obtain rfl := Option.some.inj hnil
  exact (link_eq_some hg).2.2

theorem pml2p_eq (h : Radix.table link t.mem root (leading .pml2 vaddr) = some f) :
    t.pml2p root vaddr = f := by
  have hsplit : leading .pml2 vaddr = leading .pml3 vaddr ++ [indexAt 2 vaddr] := rfl
  rw [hsplit, Radix.table_append] at h
  obtain ⟨g, hg, hlast⟩ := Option.bind_eq_some_iff.mp h
  obtain ⟨g', hg', hnil⟩ := Option.bind_eq_some_iff.mp hlast
  obtain rfl := Option.some.inj hnil
  rw [Tables.pml2p, pml3p_eq hg]
  exact (link_eq_some hg').2.2

theorem pml1p_eq (h : Radix.table link t.mem root (leading .pml1 vaddr) = some f) :
    t.pml1p root vaddr = f := by
  have hsplit : leading .pml1 vaddr = leading .pml2 vaddr ++ [indexAt 1 vaddr] := rfl
  rw [hsplit, Radix.table_append] at h
  obtain ⟨g, hg, hlast⟩ := Option.bind_eq_some_iff.mp h
  obtain ⟨g', hg', hnil⟩ := Option.bind_eq_some_iff.mp hlast
  obtain rfl := Option.some.inj hnil
  rw [Tables.pml1p, pml2p_eq hg]
  exact (link_eq_some hg').2.2

/-- Without pages above 2 MiB, and at canonical addresses, the walk is the one of that model. -/
theorem target_walk (hcanonical : Canonical vaddr)
    (h4 : getPageSize (t.mem root (VmmArc.getPml4Index vaddr)) = false)
    (h3 : getPageSize (t.mem (t.pml3p root vaddr) (VmmArc.getPml3Index vaddr)) = false) :
    (walk t.mem root vaddr).target = (t.translate root vaddr).map (·.1) := by
  unfold Tables.pml3p at h3
  have e3 : indexAt 3 vaddr = VmmArc.getPml4Index vaddr := rfl
  have e2 : indexAt 2 vaddr = VmmArc.getPml3Index vaddr := rfl
  have e1 : indexAt 1 vaddr = VmmArc.getPml2Index vaddr := rfl
  have e0 : indexAt 0 vaddr = VmmArc.getPml1Index vaddr := rfl
  rw [walk, if_pos hcanonical]
  simp only [walkFrom, Tables.translate, Nat.zero_add, Nat.reduceAdd, e3, e2, e1, e0, h4, h3]
  cases hp4 : getPresent (t.mem root (VmmArc.getPml4Index vaddr)) with
  | false => simp
  | true =>
      generalize t.mem (getAddress (t.mem root (VmmArc.getPml4Index vaddr)))
        (VmmArc.getPml3Index vaddr) = pml3e
      cases hp3 : getPresent pml3e with
      | false => simp
      | true =>
          generalize t.mem (getAddress pml3e) (VmmArc.getPml2Index vaddr) = pml2e
          cases hp2 : getPresent pml2e with
          | false => simp
          | true =>
              cases hs : getPageSize pml2e with
              | true => simp; rfl
              | false =>
                  generalize t.mem (getAddress pml2e) (VmmArc.getPml1Index vaddr) = pml1e
                  cases hp1 : getPresent pml1e with
                  | false => simp
                  | true => simp; rfl

end Frames

end Beelzebub.Memory.Fractal
