import Beelzebub.Lib.Radix
import Beelzebub.Memory.Frames
import Beelzebub.Memory.VmmArc
import Beelzebub.Memory.Regions

/-!
# Page tables

The tables of all address spaces live in physical frames.  The kernel reaches them through
windows in the active address space; a window onto a table is taken here as the frame that
it shows.  Each process has the lower half of its own table, and the kernel the higher half
of the active one, whose tables all processes share.

What the tables say is the set of their leaves: the present entries that map a page of
4 KiB or 2 MiB (`leaf`).  The hardware walk only looks at leaves (`translate_eq`).
-/

namespace Beelzebub.Memory

open VmmArc

/-! ## Entries -/

/-- An entry of a table, as the 64-bit word that it is. -/
abbrev PmlEntry := Nat

namespace PmlEntry

def getPresent (e : PmlEntry) : Bool := e % 2 == 1
def getWritable (e : PmlEntry) : Bool := e / 2 % 2 == 1
def getUserland (e : PmlEntry) : Bool := e / 4 % 2 == 1
def getPageSize (e : PmlEntry) : Bool := e / 128 % 2 == 1
def getGlobal (e : PmlEntry) : Bool := e / 256 % 2 == 1
def getXd (e : PmlEntry) : Bool := e / 2 ^ 63 % 2 == 1
/-- Bits 12 to 51. -/
def getAddress (e : PmlEntry) : Nat := e % 2 ^ 52 / pageSize * pageSize

/-- The bits are apart, so that they can be added. -/
def make (paddr : Nat) (present writable userAccessible global pageSize xd : Bool) : PmlEntry :=
  paddr % 2 ^ 52 / Memory.pageSize * Memory.pageSize + present.toNat + writable.toNat * 2 +
    userAccessible.toNat * 4 + pageSize.toNat * 128 + global.toNat * 256 + xd.toNat * 2 ^ 63

/-- Present, writable, user-accessible, executable. -/
def table (paddr : Nat) : PmlEntry := make paddr true true true false false false

/-- What an entry permits. -/
structure Access where
  writable : Bool
  userland : Bool
  global : Bool
  xd : Bool
deriving DecidableEq, Repr

def access (e : PmlEntry) : Access := ⟨getWritable e, getUserland e, getGlobal e, getXd e⟩

/-- What a mapping with these flags permits, on a processor with the given support for
non-executable pages. -/
def requested (nx : Bool) (flags : MemoryFlags) : Access where
  writable := has flags MemoryFlags.writable
  userland := has flags MemoryFlags.userland
  global := has flags MemoryFlags.global
  xd := !has flags MemoryFlags.executable && nx

/-- `Pml1Entry` or, for a large page, `Pml2Entry`. -/
def page (nx : Bool) (paddr : Nat) (flags : MemoryFlags) (large : Bool) : PmlEntry :=
  make paddr true (requested nx flags).writable (requested nx flags).userland
    (requested nx flags).global large (requested nx flags).xd

theorem bit_eq {n : Nat} {b : Bool} (h : n = b.toNat) : (n == 1) = b := by
  cases b <;> rw [h] <;> rfl

section Make

variable (paddr : Nat) (present writable userAccessible global pageSize xd : Bool)

/-- The fields of an entry read back. -/
theorem make_bits :
    getPresent (make paddr present writable userAccessible global pageSize xd) = present ∧
      getWritable (make paddr present writable userAccessible global pageSize xd) = writable ∧
      getUserland (make paddr present writable userAccessible global pageSize xd) =
        userAccessible ∧
      getPageSize (make paddr present writable userAccessible global pageSize xd) = pageSize ∧
      getGlobal (make paddr present writable userAccessible global pageSize xd) = global ∧
      getXd (make paddr present writable userAccessible global pageSize xd) = xd := by
  have h1 := Bool.toNat_le present
  have h2 := Bool.toNat_le writable
  have h3 := Bool.toNat_le userAccessible
  have h4 := Bool.toNat_le pageSize
  have h5 := Bool.toNat_le global
  have h6 := Bool.toNat_le xd
  unfold getPresent getWritable getUserland getPageSize getGlobal getXd make Memory.pageSize
  refine ⟨bit_eq ?_, bit_eq ?_, bit_eq ?_, bit_eq ?_, bit_eq ?_, bit_eq ?_⟩ <;> omega

theorem getAddress_make :
    getAddress (make paddr present writable userAccessible global pageSize xd) =
      paddr % 2 ^ 52 / Memory.pageSize * Memory.pageSize := by
  have h1 := Bool.toNat_le present
  have h2 := Bool.toNat_le writable
  have h3 := Bool.toNat_le userAccessible
  have h4 := Bool.toNat_le pageSize
  have h5 := Bool.toNat_le global
  have h6 := Bool.toNat_le xd
  unfold getAddress make Memory.pageSize
  omega

end Make

@[simp] theorem getPresent_zero : getPresent 0 = false := rfl

@[simp] theorem getPresent_table (paddr : Nat) : getPresent (table paddr) = true :=
  (make_bits ..).1

@[simp] theorem getPageSize_table (paddr : Nat) : getPageSize (table paddr) = false :=
  (make_bits ..).2.2.2.1

/-- A frame of 4 KiB below the bound on physical addresses. -/
def IsFrame (f : Nat) : Prop := f % Memory.pageSize = 0 ∧ f < 2 ^ 52

theorem getAddress_table {f : Nat} (h : IsFrame f) : getAddress (table f) = f := by
  obtain ⟨haligned, hbound⟩ := h
  rw [table, getAddress_make]
  unfold Memory.pageSize at *
  omega

variable (nx : Bool) (paddr : Nat) (flags : MemoryFlags) (large : Bool)

@[simp] theorem getPresent_page : getPresent (page nx paddr flags large) = true := (make_bits ..).1

@[simp] theorem getPageSize_page : getPageSize (page nx paddr flags large) = large :=
  (make_bits ..).2.2.2.1

theorem access_page : access (page nx paddr flags large) = requested nx flags := by
  obtain ⟨-, h1, h2, -, h3, h4⟩ := make_bits paddr true (requested nx flags).writable
    (requested nx flags).userland (requested nx flags).global large (requested nx flags).xd
  rw [access, page, h1, h2, h3, h4]

theorem getAddress_page {f : Nat} (h : IsFrame f) :
    getAddress (page nx f flags large) = f := by
  obtain ⟨haligned, hbound⟩ := h
  rw [page, getAddress_make]
  unfold Memory.pageSize at *
  omega

end PmlEntry

open PmlEntry

/-! ## Tables -/

namespace VmmArc

def getPml4Index (vaddr : Nat) : Nat := vaddr / 2 ^ 39 % 512
def getPml3Index (vaddr : Nat) : Nat := vaddr / 2 ^ 30 % 512
def getPml2Index (vaddr : Nat) : Nat := vaddr / 2 ^ 21 % 512
def getPml1Index (vaddr : Nat) : Nat := vaddr / 2 ^ 12 % 512

end VmmArc

/-- The contents of physical memory, as words of 4-KiB frames, and the frame allocator. -/
structure Tables where
  mem : Nat → Nat → PmlEntry
  pmm : Pmm

/-- The part of the virtual addresses that one set of tables is for. -/
inductive Space where
  /-- The lower half of a process, given by the address of its paging table. -/
  | user (pagingTable : Nat)
  | kernel
deriving DecidableEq, Repr

/-- The paging tables of all processes, and the one that is active. -/
structure AddressSpaces where
  active : Nat
  pagingTables : List Nat

namespace Space

/-- The address is legal and belongs to the part. -/
def Covers : Space → Nat → Prop
  | user _, vaddr => vaddr < lowerHalfEnd
  | kernel, vaddr => higherHalfStart ≤ vaddr ∧ vaddr < 2 ^ 64 ∧
      ¬(fractalStart ≤ vaddr ∧ vaddr < fractalEnd)

instance (s : Space) (vaddr : Nat) : Decidable (s.Covers vaddr) :=
  match s with
  | user _ => inferInstanceAs (Decidable (_ < _))
  | kernel => inferInstanceAs (Decidable (_ ∧ _ ∧ _))

/-- The entries of the topmost table that belong to the part. -/
def Half : Space → Nat → Prop
  | user _, i => i < 256
  | kernel, i => 256 ≤ i ∧ i ≠ alienFractalIndex ∧ i ≠ localFractalIndex

/-- The part of an address, in the address space of a process. -/
def ofAddress (pagingTable vaddr : Nat) : Space :=
  if vaddr < lowerHalfEnd then user pagingTable else kernel

theorem covers_ofAddress {vaddr : Nat} (pagingTable : Nat) (hbound : vaddr < 2 ^ 64)
    (hlegal : ¬Illegal vaddr) : (ofAddress pagingTable vaddr).Covers vaddr := by
  unfold Illegal at hlegal
  unfold ofAddress
  split
  next h => exact h
  next h => exact ⟨by omega, hbound, fun hf => hlegal (Or.inl hf)⟩

end Space

namespace AddressSpaces

def root (as : AddressSpaces) : Space → Nat
  | .user pagingTable => pagingTable
  | .kernel => as.active

def Known (as : AddressSpaces) : Space → Prop
  | .user pagingTable => pagingTable ∈ as.pagingTables
  | .kernel => True

/-- The words of all tables, found by up to four indices. -/
def forest (as : AddressSpaces) : Radix.Forest Space Nat Nat where
  root := as.root
  valid s p := as.Known s ∧ p.length ≤ 4 ∧ (∀ i ∈ p, i < 512) ∧ ∀ i ∈ p.head?, s.Half i
  valid_of_append := by
    rintro s p q hp ⟨hknown, hlength, hindex, hhead⟩
    rw [List.length_append] at hlength
    refine ⟨hknown, by omega, fun i hi => hindex i (by simp [hi]), fun i hi => hhead i ?_⟩
    rw [List.head?_append_of_ne_nil _ hp]
    exact hi

theorem valid_indices {as : AddressSpaces} {s : Space} {v : Nat} (hs : as.Known s)
    (hv : s.Covers v) :
    as.forest.valid s [getPml4Index v, getPml3Index v, getPml2Index v, getPml1Index v] := by
  refine ⟨hs, by simp, fun i hi => ?_, fun i hi => ?_⟩
  · simp only [List.mem_cons, List.not_mem_nil, or_false] at hi
    rcases hi with rfl | rfl | rfl | rfl
    all_goals exact Nat.mod_lt _ (by decide)
  · obtain rfl := Option.some.inj hi
    unfold getPml4Index
    cases s with
    | user pagingTable =>
        have hv : v < lowerHalfEnd := hv
        unfold lowerHalfEnd at hv
        show _ < 256
        omega
    | kernel =>
        obtain ⟨hlow, hhigh, hfractal⟩ := hv
        unfold fractalStart fractalEnd fractalStart higherHalfStart alienFractalIndex at *
        refine ⟨?_, ?_, ?_⟩
        · omega
        · unfold alienFractalIndex
          omega
        · unfold localFractalIndex
          omega

end AddressSpaces

namespace Tables

/-- The table below an entry.  A large page has none. -/
def link (e : PmlEntry) : Option Nat :=
  if getPresent e ∧ ¬getPageSize e then some (getAddress e) else none

/-- The table found by some indices. -/
def tableAt (t : Tables) (as : AddressSpaces) (s : Space) (p : List Nat) : Option Nat :=
  Radix.table link t.mem (as.root s) p

/-- The entry maps a page, in a table that is found by these indices. -/
def IsLeaf (p : List Nat) (e : PmlEntry) : Prop :=
  getPresent e = true ∧ (p.length = 3 ∨ p.length = 2 ∧ getPageSize e = true)

instance (p : List Nat) (e : PmlEntry) : Decidable (IsLeaf p e) :=
  inferInstanceAs (Decidable (_ ∧ _))

/-- The page that is mapped at an index of the table found by some indices. -/
def leaf (t : Tables) (as : AddressSpaces) (s : Space) (p : List Nat) (i : Nat) :
    Option PmlEntry :=
  ((t.tableAt as s p).map (t.mem · i)).filter fun e => IsLeaf p e

/-- The windows onto the tables for an address. -/
def pml3p (t : Tables) (root vaddr : Nat) : Nat := getAddress (t.mem root (getPml4Index vaddr))
def pml2p (t : Tables) (root vaddr : Nat) : Nat :=
  getAddress (t.mem (t.pml3p root vaddr) (getPml3Index vaddr))
def pml1p (t : Tables) (root vaddr : Nat) : Nat :=
  getAddress (t.mem (t.pml2p root vaddr) (getPml2Index vaddr))

/-- The walk of the processor from a topmost table. -/
def translate (t : Tables) (root vaddr : Nat) : Option (Nat × Access) :=
  let pml4e := t.mem root (getPml4Index vaddr)
  if getPresent pml4e then
    let pml3e := t.mem (getAddress pml4e) (getPml3Index vaddr)
    if getPresent pml3e then
      let pml2e := t.mem (getAddress pml3e) (getPml2Index vaddr)
      if getPresent pml2e then
        if getPageSize pml2e then
          some (pml2e % 2 ^ 52 / largePageSize * largePageSize + vaddr % largePageSize,
            access pml2e)
        else
          let pml1e := t.mem (getAddress pml2e) (getPml1Index vaddr)
          if getPresent pml1e then some (getAddress pml1e + vaddr % pageSize, access pml1e)
          else none
      else none
    else none
  else none

/-- `TranslateInternal`: the entry that its callback is given, with the level. -/
def translateInternal (t : Tables) (root vaddr : Nat) : Option (PmlEntry × Nat) :=
  if getPresent (t.mem root (getPml4Index vaddr)) = false then none
  else if getPresent (t.mem (t.pml3p root vaddr) (getPml3Index vaddr)) = false then none
  else
    let pml2e := t.mem (t.pml2p root vaddr) (getPml2Index vaddr)
    if getPresent pml2e = false then none
    else if getPageSize pml2e then some (pml2e, 2)
    else
      let pml1e := t.mem (t.pml1p root vaddr) (getPml1Index vaddr)
      if getPresent pml1e = false then none else some (pml1e, 1)

/-- What the processor makes of an entry. -/
def resolve (vaddr : Nat) : PmlEntry × Nat → Nat × Access
  | (e, 2) => (e % 2 ^ 52 / largePageSize * largePageSize + vaddr % largePageSize, access e)
  | (e, _) => (getAddress e + vaddr % pageSize, access e)

/-- The tables form trees of four levels. -/
structure Shaped (t : Tables) (as : AddressSpaces) : Prop where
  /-- Every word is met once. -/
  separate : as.forest.Separate link t.mem
  /-- There are no pages of 1 GiB. -/
  upper : ∀ {s p i f}, as.forest.Holds link t.mem s p i f → p.length < 2 →
    getPresent (t.mem f i) = true → getPageSize (t.mem f i) = false

/-- The state of page tables that the kernel keeps. -/
structure Wf (t : Tables) (as : AddressSpaces) : Prop extends Shaped t as where
  sound : t.pmm.Sound
  /-- The topmost tables are in use. -/
  roots : ∀ {s}, as.Known s → ¬t.pmm.FreeAt (as.root s)
  /-- No entry refers to a free frame. -/
  noDangling : ∀ {s p i f}, as.forest.Holds link t.mem s p i f → getPresent (t.mem f i) = true →
    ¬t.pmm.FreeAt (getAddress (t.mem f i))

/-- The part of it that is about tables.  What the pages show is left open. -/
structure Grounded (t : Tables) (as : AddressSpaces) : Prop extends Shaped t as where
  sound : t.pmm.Sound
  roots : ∀ {s}, as.Known s → ¬t.pmm.FreeAt (as.root s)
  tables : ∀ {s p i f n}, as.forest.Holds link t.mem s p i f → p.length < 3 →
    link (t.mem f i) = some n → ¬t.pmm.FreeAt n

/-! ## Walks -/

variable {t t' : Tables} {as : AddressSpaces} {s s' : Space} {p q : List Nat} {i j f v : Nat}
  {e : PmlEntry}

/-- The kernel and the processor find the same entry. -/
theorem translate_eq_resolve (t : Tables) (root v : Nat) :
    t.translate root v = (t.translateInternal root v).map (resolve v) := by
  unfold translate translateInternal pml1p pml2p pml3p
  simp only [← Bool.not_eq_true, ite_not, apply_ite (Option.map (resolve v)), Option.map_none,
    Option.map_some]
  rfl

@[simp] theorem tableAt_nil : t.tableAt as s [] = some (as.root s) := rfl

theorem tableAt_snoc (p : List Nat) (i : Nat) :
    t.tableAt as s (p ++ [i]) = (t.tableAt as s p).bind fun f => link (t.mem f i) := by
  unfold tableAt
  rw [Radix.table_append]
  congr 1
  funext f
  rw [Radix.table_cons]
  cases link (t.mem f i) <;> rfl

theorem link_of_upper (h : t.Shaped as) (hpos : as.forest.Holds link t.mem s p i f)
    (hp : p.length < 2) :
    link (t.mem f i) = if getPresent (t.mem f i) then some (getAddress (t.mem f i)) else none := by
  unfold link
  cases hpresent : getPresent (t.mem f i) with
  | true => simp [h.upper hpos hp hpresent]
  | false => simp

section Levels

variable (h : t.Shaped as) (hs : as.Known s) (hv : s.Covers v)

include hs hv in
theorem holds_pml4 : as.forest.Holds link t.mem s [] (getPml4Index v) (as.root s) :=
  ⟨as.forest.valid_of_append (by simp) (AddressSpaces.valid_indices hs hv), rfl⟩

include h hs hv

theorem tableAt_pml3 : t.tableAt as s [getPml4Index v] =
    if getPresent (t.mem (as.root s) (getPml4Index v)) then some (t.pml3p (as.root s) v)
    else none := by
  have hstep : t.tableAt as s [getPml4Index v] = link (t.mem (as.root s) (getPml4Index v)) :=
    tableAt_snoc [] (getPml4Index v)
  rw [hstep, link_of_upper h (holds_pml4 hs hv) (by simp)]
  rfl

theorem holds_pml3 (h4 : getPresent (t.mem (as.root s) (getPml4Index v)) = true) :
    as.forest.Holds link t.mem s [getPml4Index v] (getPml3Index v) (t.pml3p (as.root s) v) := by
  refine ⟨as.forest.valid_of_append (q := [getPml2Index v, getPml1Index v]) (by simp)
    (AddressSpaces.valid_indices hs hv), ?_⟩
  have htable := tableAt_pml3 h hs hv
  rw [if_pos h4] at htable
  exact htable

theorem tableAt_pml2 : t.tableAt as s [getPml4Index v, getPml3Index v] =
    if getPresent (t.mem (as.root s) (getPml4Index v)) ∧
        getPresent (t.mem (t.pml3p (as.root s) v) (getPml3Index v)) then
      some (t.pml2p (as.root s) v)
    else none := by
  have hstep : t.tableAt as s [getPml4Index v, getPml3Index v] =
      (t.tableAt as s [getPml4Index v]).bind fun f => link (t.mem f (getPml3Index v)) :=
    tableAt_snoc [getPml4Index v] (getPml3Index v)
  rw [hstep, tableAt_pml3 h hs hv]
  by_cases h4 : getPresent (t.mem (as.root s) (getPml4Index v)) = true
  · simp only [h4, if_true, Option.bind_some, true_and]
    rw [link_of_upper h (holds_pml3 h hs hv h4) (by simp)]
    rfl
  · simp [h4]

theorem holds_pml2 (h4 : getPresent (t.mem (as.root s) (getPml4Index v)) = true)
    (h3 : getPresent (t.mem (t.pml3p (as.root s) v) (getPml3Index v)) = true) :
    as.forest.Holds link t.mem s [getPml4Index v, getPml3Index v] (getPml2Index v)
      (t.pml2p (as.root s) v) := by
  refine ⟨as.forest.valid_of_append (q := [getPml1Index v]) (by simp)
    (AddressSpaces.valid_indices hs hv), ?_⟩
  have htable := tableAt_pml2 h hs hv
  rw [if_pos ⟨h4, h3⟩] at htable
  exact htable

theorem tableAt_pml1 : t.tableAt as s [getPml4Index v, getPml3Index v, getPml2Index v] =
    if (getPresent (t.mem (as.root s) (getPml4Index v)) ∧
        getPresent (t.mem (t.pml3p (as.root s) v) (getPml3Index v))) ∧
        getPresent (t.mem (t.pml2p (as.root s) v) (getPml2Index v)) ∧
        ¬getPageSize (t.mem (t.pml2p (as.root s) v) (getPml2Index v)) then
      some (t.pml1p (as.root s) v)
    else none := by
  have hstep : t.tableAt as s [getPml4Index v, getPml3Index v, getPml2Index v] =
      (t.tableAt as s [getPml4Index v, getPml3Index v]).bind fun f =>
        link (t.mem f (getPml2Index v)) :=
    tableAt_snoc [getPml4Index v, getPml3Index v] (getPml2Index v)
  rw [hstep, tableAt_pml2 h hs hv]
  by_cases h43 : getPresent (t.mem (as.root s) (getPml4Index v)) = true ∧
      getPresent (t.mem (t.pml3p (as.root s) v) (getPml3Index v)) = true
  · rw [if_pos h43, Option.bind_some]
    simp only [h43, and_self, true_and]
    rfl
  · rw [if_neg h43, Option.bind_none, if_neg fun hall => h43 hall.1]

theorem holds_pml1 (h4 : getPresent (t.mem (as.root s) (getPml4Index v)) = true)
    (h3 : getPresent (t.mem (t.pml3p (as.root s) v) (getPml3Index v)) = true)
    (h2 : getPresent (t.mem (t.pml2p (as.root s) v) (getPml2Index v)) = true)
    (hsmall : getPageSize (t.mem (t.pml2p (as.root s) v) (getPml2Index v)) = false) :
    as.forest.Holds link t.mem s [getPml4Index v, getPml3Index v, getPml2Index v]
      (getPml1Index v) (t.pml1p (as.root s) v) := by
  refine ⟨AddressSpaces.valid_indices hs hv, ?_⟩
  have htable := tableAt_pml1 h hs hv
  rw [if_pos ⟨⟨h4, h3⟩, h2, by simp [hsmall]⟩] at htable
  exact htable

/-- A walk ends at a large page, or at a small page, or nowhere. -/
theorem translateInternal_eq : t.translateInternal (as.root s) v =
    match t.leaf as s [getPml4Index v, getPml3Index v] (getPml2Index v) with
    | some e => some (e, 2)
    | none => (t.leaf as s [getPml4Index v, getPml3Index v, getPml2Index v]
        (getPml1Index v)).map fun e => (e, 1) := by
  unfold translateInternal leaf
  rw [tableAt_pml1 h hs hv, tableAt_pml2 h hs hv]
  simp only [IsLeaf, List.length_cons, List.length_nil]
  by_cases h4 : getPresent (t.mem (as.root s) (getPml4Index v)) = true
  · simp only [h4, true_and]
    by_cases h3 : getPresent (t.mem (t.pml3p (as.root s) v) (getPml3Index v)) = true
    · simp only [h3, true_and]
      by_cases h2 : getPresent (t.mem (t.pml2p (as.root s) v) (getPml2Index v)) = true
      · by_cases hlarge : getPageSize (t.mem (t.pml2p (as.root s) v) (getPml2Index v)) = true
        · simp [Option.filter_some, h2, hlarge]
        · by_cases h1 : getPresent (t.mem (t.pml1p (as.root s) v) (getPml1Index v)) = true
          · simp [Option.filter_some, h2, hlarge, h1]
          · simp [Option.filter_some, h2, hlarge, h1]
      · simp [Option.filter_some, h2]
    · simp [h3]
  · simp [h4]

theorem translate_eq : t.translate (as.root s) v =
    match t.leaf as s [getPml4Index v, getPml3Index v] (getPml2Index v) with
    | some e => some (e % 2 ^ 52 / largePageSize * largePageSize + v % largePageSize, access e)
    | none => (t.leaf as s [getPml4Index v, getPml3Index v, getPml2Index v]
        (getPml1Index v)).map fun e => (getAddress e + v % pageSize, access e) := by
  rw [translate_eq_resolve, translateInternal_eq h hs hv]
  cases t.leaf as s [getPml4Index v, getPml3Index v] (getPml2Index v) with
  | none =>
      cases t.leaf as s [getPml4Index v, getPml3Index v, getPml2Index v] (getPml1Index v) <;> rfl
  | some e => rfl

end Levels

/-! ## New tables -/

theorem link_eq_some : link e = some f ↔
    getPresent e = true ∧ getPageSize e = false ∧ getAddress e = f := by
  unfold link
  split
  next h =>
    obtain ⟨h1, h2⟩ := h
    simp [h1, h2]
  next h =>
    refine ⟨nofun, fun hall => absurd ⟨hall.1, ?_⟩ h⟩
    simp [hall.2.1]

theorem link_of_not_present (h : getPresent e = false) : link e = none := by
  simp [link, h]

theorem link_table (h : IsFrame f) : link (PmlEntry.table f) = some f :=
  link_eq_some.mpr ⟨getPresent_table f, getPageSize_table f, getAddress_table h⟩

theorem leaf_eq_some : t.leaf as s p i = some e ↔
    ∃ f, t.tableAt as s p = some f ∧ t.mem f i = e ∧ IsLeaf p e := by
  unfold leaf
  rw [Option.filter_eq_some_iff, Option.map_eq_some_iff]
  simp only [decide_eq_true_eq]
  constructor
  · rintro ⟨⟨f, hf, he⟩, hleaf⟩
    exact ⟨f, hf, he, hleaf⟩
  · rintro ⟨f, hf, he, hleaf⟩
    exact ⟨⟨f, hf, he⟩, hleaf⟩

theorem Wf.grounded (h : t.Wf as) : t.Grounded as where
  toShaped := h.toShaped
  sound := h.sound
  roots := h.roots
  tables := by
    intro s p i f n hpos _ hlink
    obtain ⟨hpresent, -, rfl⟩ := link_eq_some.mp hlink
    exact h.noDangling hpos hpresent

/-- The pages do not show free frames either. -/
theorem Grounded.wf (h : t.Grounded as) (hpages : ∀ {s p i e}, as.forest.valid s (p ++ [i]) →
    t.leaf as s p i = some e → ¬t.pmm.FreeAt (getAddress e)) : t.Wf as where
  toShaped := h.toShaped
  sound := h.sound
  roots := h.roots
  noDangling := by
    intro s p i f hpos hpresent
    have hlength : p.length < 4 := by
      have hvalid := hpos.1.2.1
      rw [List.length_append, List.length_singleton] at hvalid
      omega
    by_cases hleaf : IsLeaf p (t.mem f i)
    · exact hpages hpos.1 (leaf_eq_some.mpr ⟨f, hpos.2, rfl, hleaf⟩)
    · have hlow : p.length ≠ 3 := fun hthree => hleaf ⟨hpresent, Or.inl hthree⟩
      have hsmall : getPageSize (t.mem f i) = false := by
        by_cases htop : p.length < 2
        · exact h.upper hpos htop hpresent
        · rw [← Bool.not_eq_true]
          exact fun hlarge => hleaf ⟨hpresent, Or.inr ⟨by omega, hlarge⟩⟩
      exact h.tables hpos (by omega) (link_eq_some.mpr ⟨hpresent, hsmall, rfl⟩)

/-- No table is in a free frame. -/
theorem Grounded.not_freeAt_table (h : t.Grounded as) (hpos : as.forest.Holds link t.mem s p i f) :
    ¬t.pmm.FreeAt f := by
  obtain ⟨hvalid, htable⟩ := hpos
  rcases List.eq_nil_or_concat p with rfl | ⟨q, k, rfl⟩
  · cases htable
    exact h.roots hvalid.1
  · rw [List.concat_eq_append] at hvalid htable
    have hstep : t.tableAt as s (q ++ [k]) = some f := htable
    rw [tableAt_snoc] at hstep
    obtain ⟨f', hf', hlink⟩ := Option.bind_eq_some_iff.mp hstep
    have hlength := hvalid.2.1
    simp only [List.length_append, List.length_singleton] at hlength
    exact h.tables ⟨as.forest.valid_of_append (by simp) hvalid, hf'⟩ (by omega) hlink

/-- Hangs a cleared table under an entry. -/
def hang (t : Tables) (f i n : Nat) (pmm : Pmm) : Tables where
  mem := Radix.attach t.mem f i (PmlEntry.table n) n 0
  pmm := pmm

section Hang

variable {n : Nat} {pmm : Pmm}

theorem isFrame_of_takes (hsound : pmm.Sound)
    (htakes : Pmm.Takes t.pmm pmm { address := n, size := ._4KiB } 1) : IsFrame n := by
  obtain ⟨-, hbound, haligned, -⟩ :=
    hsound.uses_bounds ((htakes.uses { address := n, size := ._4KiB } 1).mpr (Or.inr ⟨rfl, rfl⟩))
  simp only [FrameSize.bytes] at hbound haligned
  exact ⟨haligned, by omega⟩

variable (h : t.Grounded as) (hpos : as.forest.Holds link t.mem s p i f) (hp : p.length ≤ 2)
  (hfree : getPresent (t.mem f i) = false) (hsound : pmm.Sound)
  (htakes : Pmm.Takes t.pmm pmm { address := n, size := ._4KiB } 1)

include h htakes

theorem unused_of_takes : as.forest.Unused link t.mem n := by
  intro s' q j f' hpos' heq
  subst heq
  exact h.not_freeAt_table hpos' (htakes.free _ ⟨Nat.le_refl _, by simp [FrameSize.bytes]⟩)

include hpos hfree hsound

theorem tableAt_hang (hq : as.forest.valid s' (q ++ [j])) :
    (t.hang f i n pmm).tableAt as s' q =
      if s' = s ∧ q = p ++ [i] then some n else t.tableAt as s' q :=
  Radix.table_attach h.separate hpos (link_of_not_present hfree)
    (link_table (isFrame_of_takes hsound htakes)) (link_of_not_present getPresent_zero)
    (unused_of_takes h htakes) hq

/-- A word of a table of the new state is new, or is the entry, or is as before. -/
theorem holds_hang {f' : Nat} (hpos' : as.forest.Holds link (t.hang f i n pmm).mem s' q j f') :
    (s' = s ∧ q = p ++ [i] ∧ f' = n ∧ (t.hang f i n pmm).mem f' j = 0) ∨
      (s' = s ∧ q = p ∧ j = i ∧ f' = f ∧ (t.hang f i n pmm).mem f' j = PmlEntry.table n) ∨
      (as.forest.Holds link t.mem s' q j f' ∧ ¬(s' = s ∧ q = p ∧ j = i) ∧
        (t.hang f i n pmm).mem f' j = t.mem f' j) := by
  have htable : (t.hang f i n pmm).tableAt as s' q = some f' := hpos'.2
  rw [tableAt_hang h hpos hfree hsound htakes hpos'.1] at htable
  have hword : (t.hang f i n pmm).mem f' j =
      if f' = n then 0 else if f' = f ∧ j = i then PmlEntry.table n else t.mem f' j :=
    Radix.attach_apply ..
  rw [hword]
  split at htable
  next hnew =>
    obtain ⟨rfl, rfl⟩ := hnew
    cases htable
    exact Or.inl ⟨rfl, rfl, rfl, if_pos rfl⟩
  next =>
    have hold : as.forest.Holds link t.mem s' q j f' := ⟨hpos'.1, htable⟩
    rw [if_neg (unused_of_takes h htakes hold)]
    by_cases hat : f' = f ∧ j = i
    · obtain ⟨rfl, rfl⟩ := hat
      obtain ⟨rfl, rfl⟩ := h.separate hold hpos
      exact Or.inr (Or.inl ⟨rfl, rfl, rfl, rfl, if_pos ⟨rfl, rfl⟩⟩)
    · refine Or.inr (Or.inr ⟨hold, ?_, if_neg hat⟩)
      rintro ⟨rfl, rfl, rfl⟩
      have heq := htable.symm.trans hpos.2
      exact hat ⟨Option.some.inj heq, rfl⟩

theorem Grounded.hang : (t.hang f i n pmm).Grounded as := by
  have hframe := isFrame_of_takes hsound htakes
  have htaken : ¬pmm.FreeAt n := htakes.taken n ⟨Nat.le_refl _, by simp [FrameSize.bytes]⟩
  refine ⟨⟨?_, ?_⟩, hsound, ?_, ?_⟩
  · exact Radix.separate_attach h.separate hpos (link_of_not_present hfree) (link_table hframe)
      (link_of_not_present getPresent_zero) (unused_of_takes h htakes)
  · intro s' q j f' hpos' hq hpresent
    rcases holds_hang h hpos hfree hsound htakes hpos' with
      ⟨-, -, -, hw⟩ | ⟨-, -, -, -, hw⟩ | ⟨hold, -, hw⟩
    · rw [hw] at hpresent
      cases hpresent
    · rw [hw]
      exact getPageSize_table n
    · rw [hw] at hpresent ⊢
      exact h.upper hold hq hpresent
  · intro s' hs' hf
    exact h.roots hs' (htakes.keeps _ hf)
  · intro s' q j f' m hpos' hq hlink hf
    rcases holds_hang h hpos hfree hsound htakes hpos' with
      ⟨-, -, -, hw⟩ | ⟨-, -, -, -, hw⟩ | ⟨hold, -, hw⟩
    · rw [hw, link_of_not_present getPresent_zero] at hlink
      cases hlink
    · rw [hw, link_table hframe] at hlink
      cases hlink
      exact htaken hf
    · rw [hw] at hlink
      exact h.tables hold hq hlink (htakes.keeps _ hf)

include hp in
/-- A new table maps nothing. -/
theorem leaf_hang (hq : as.forest.valid s' (q ++ [j])) :
    (t.hang f i n pmm).leaf as s' q j = t.leaf as s' q j := by
  have htable := tableAt_hang h hpos hfree hsound htakes hq
  unfold leaf
  cases hnew : (t.hang f i n pmm).tableAt as s' q with
  | none =>
      rw [hnew] at htable
      split at htable
      · cases htable
      · rw [← htable]
        rfl
  | some f' =>
      rcases holds_hang h hpos hfree hsound htakes ⟨hq, hnew⟩ with
        ⟨rfl, rfl, rfl, hw⟩ | ⟨rfl, rfl, rfl, rfl, hw⟩ | ⟨hold, -, hw⟩
      · have hnone : t.tableAt as s' (p ++ [i]) = none := by
          rw [tableAt_snoc, show t.tableAt as s' p = some f from hpos.2, Option.bind_some,
            link_of_not_present hfree]
        rw [hnone, Option.map_some, hw]
        simp [Option.filter_some, IsLeaf]
      · rw [show t.tableAt as s' q = some f' from hpos.2, Option.map_some, Option.map_some, hw]
        have hleaf : ¬IsLeaf q (PmlEntry.table n) := by
          rintro ⟨-, hthree | ⟨-, hlarge⟩⟩
          · omega
          · rw [getPageSize_table] at hlarge
            cases hlarge
        have hleaf' : ¬IsLeaf q (t.mem f' j) := by
          rintro ⟨hpresent, -⟩
          rw [hfree] at hpresent
          cases hpresent
        simp only [Option.filter_some, decide_eq_true_eq, hleaf, hleaf', if_false]
      · rw [show t.tableAt as s' q = some f' from hold.2, Option.map_some, Option.map_some, hw]

end Hang

/-! ## New entries -/

/-- Stores an entry. -/
def store (t : Tables) (f i : Nat) (e : PmlEntry) : Tables :=
  { t with mem := Radix.store t.mem f i e }

theorem mem_store (t : Tables) (f i : Nat) (e : PmlEntry) :
    (t.store f i e).mem = Radix.store t.mem f i e := rfl

/-- The entry can be stored without moving a table: it is in a table of the lowest level, or
neither it nor the one before links to a table. -/
def Keeps (t : Tables) (p : List Nat) (f i : Nat) (e : PmlEntry) : Prop :=
  p.length = 3 ∨ link e = none ∧ link (t.mem f i) = none

section Store

variable (h : t.Shaped as) (hpos : as.forest.Holds link t.mem s p i f) (hkeeps : t.Keeps p f i e)

include h hpos hkeeps

theorem tableAt_store (hq : as.forest.valid s' (q ++ [j])) :
    (t.store f i e).tableAt as s' q = t.tableAt as s' q := by
  rcases hkeeps with hp | ⟨hnew, hold⟩
  · refine Radix.table_store_of_end h.separate hpos (fun k hk => ?_) hq
    have hlength := hk.2.1
    simp [hp] at hlength
  · exact Radix.table_store (hnew.trans hold.symm) _ q

theorem holds_store {f' : Nat} (hpos' : as.forest.Holds link (t.store f i e).mem s' q j f') :
    as.forest.Holds link t.mem s' q j f' :=
  ⟨hpos'.1, (tableAt_store h hpos hkeeps hpos'.1).symm.trans hpos'.2⟩

/-- The only page that changes is the one of the entry. -/
theorem leaf_store (hq : as.forest.valid s' (q ++ [j])) :
    (t.store f i e).leaf as s' q j =
      if s' = s ∧ q = p ∧ j = i then (some e).filter fun e => IsLeaf p e else t.leaf as s' q j := by
  unfold leaf
  rw [tableAt_store h hpos hkeeps hq]
  split
  next hat =>
    obtain ⟨rfl, rfl, rfl⟩ := hat
    rw [show t.tableAt as s' q = some f from hpos.2, Option.map_some]
    congr 2
    exact Radix.store_self ..
  next hat =>
    cases htable : t.tableAt as s' q with
    | none => rfl
    | some f' =>
        rw [Option.map_some, Option.map_some]
        congr 2
        refine Radix.store_of_ne ?_
        rintro ⟨rfl, rfl⟩
        obtain ⟨rfl, rfl⟩ := h.separate ⟨hq, htable⟩ hpos
        exact hat ⟨rfl, rfl, rfl⟩

theorem word_store {f' : Nat} (hpos' : as.forest.Holds link (t.store f i e).mem s' q j f') :
    (s' = s ∧ q = p ∧ (t.store f i e).mem f' j = e) ∨ (t.store f i e).mem f' j = t.mem f' j := by
  by_cases hat : f' = f ∧ j = i
  · obtain ⟨rfl, rfl⟩ := hat
    obtain ⟨rfl, rfl⟩ := h.separate (holds_store h hpos hkeeps hpos') hpos
    exact Or.inl ⟨rfl, rfl, Radix.store_self ..⟩
  · exact Or.inr (Radix.store_of_ne hat)

theorem Shaped.store (hp : 2 ≤ p.length) : (t.store f i e).Shaped as := by
  refine ⟨?_, ?_⟩
  · exact Radix.Forest.Separate.congr h.separate fun hvalid => tableAt_store h hpos hkeeps hvalid
  · intro s' q j f' hpos' hq hpresent
    rcases word_store h hpos hkeeps hpos' with ⟨-, rfl, -⟩ | hsame
    · omega
    · rw [hsame] at hpresent ⊢
      exact h.upper (holds_store h hpos hkeeps hpos') hq hpresent

omit h in
theorem Grounded.store (h : t.Grounded as) (hp : 2 ≤ p.length) :
    (t.store f i e).Grounded as := by
  refine ⟨h.toShaped.store hpos hkeeps hp, h.sound, h.roots, ?_⟩
  intro s' q j f' n hpos' hq hlink
  have hold := holds_store h.toShaped hpos hkeeps hpos'
  rcases word_store h.toShaped hpos hkeeps hpos' with ⟨rfl, rfl, hsame⟩ | hsame
  · rw [hsame] at hlink
    rcases hkeeps with hlength | ⟨hnone, -⟩
    · omega
    · rw [hnone] at hlink
      cases hlink
  · rw [hsame] at hlink
    exact h.tables hold hq hlink

end Store

end Tables

end Beelzebub.Memory
