import Mathlib.Algebra.Ring.Nat
import Mathlib.Data.List.Basic
import Mathlib.Data.Nat.Notation
import Mathlib.Tactic.Common

/-!
# Parsing of ELF64 images

An image is a range of memory, which may hold anything; reads beyond the range give what is there.
The segment validator is handed over by the loader and keeps whatever data it likes.
-/

namespace Beelzebub.Execution

/-! ## The code -/

abbrev Memory := UInt64 → UInt8

/-- A little-endian number of so many bytes. -/
def readBytes (mem : Memory) : ℕ → UInt64 → ℕ
  | 0, _ => 0
  | n + 1, addr => (mem addr).toNat + 256 * readBytes mem n (addr + 1)

def read16 (mem : Memory) (addr : UInt64) : UInt16 := .ofNat (readBytes mem 2 addr)
def read32 (mem : Memory) (addr : UInt64) : UInt32 := .ofNat (readBytes mem 4 addr)
def read64 (mem : Memory) (addr : UInt64) : UInt64 := .ofNat (readBytes mem 8 addr)

structure PointerAndSize where
  start : UInt64
  size : UInt64

def intersectMemoryRanges (a b : PointerAndSize) : PointerAndSize :=
  let maxStart := max a.start b.start
  let minEnd := min (a.start + a.size) (b.start + b.size)
  if minEnd ≤ maxStart then ⟨0, 0⟩ else ⟨maxStart, minEnd - maxStart⟩

inductive ElfValidationResult where
  | segmentRangeInvalid
  | structureSizeMismatch
  | segmentHeadersOutOfBounds
  | segmentOutOfBounds
  | segmentNonCongruent
  | segmentsOverlap
  | segmentOutOfLoad
  | segmentInPartialLoad
  | dtEntryOutOfBounds
  | dtEntryMissing
  | dtEntryMultiplicate
  | dtEntryAddressOutOfBounds
  | dtEntryAddressInPartialLoad
  | dtInvalidPltRelocationType
  | dtEntryWrongSegmentFlags
  | unloadable
  | dynamicSegmentMultiplicate
  deriving DecidableEq

inductive RangeLoadStatus where
  | fullyLoaded
  | completelyAbsent
  | partiallyLoaded
  | optionsNotMet

inductive RangeLoadOptions where
  | none
  | writable
  | executable

/-! `ElfProgramHeaderType` and `ElfProgramHeaderFlags`. -/

def typeLoad : UInt32 := 1
def typeDynamic : UInt32 := 2
def typeTls : UInt32 := 7

def flagExecutable : UInt32 := 1
def flagWritable : UInt32 := 2

structure ElfProgramHeader64 where
  type : UInt32
  flags : UInt32
  offset : UInt64
  vAddr : UInt64
  pSize : UInt64
  vSize : UInt64
  deriving DecidableEq

namespace ElfProgramHeader64

def read (mem : Memory) (addr : UInt64) : ElfProgramHeader64 where
  type := read32 mem addr
  flags := read32 mem (addr + 4)
  offset := read64 mem (addr + 8)
  vAddr := read64 mem (addr + 16)
  pSize := read64 mem (addr + 32)
  vSize := read64 mem (addr + 40)

def range (phdr : ElfProgramHeader64) : PointerAndSize := ⟨phdr.vAddr, phdr.vSize⟩

end ElfProgramHeader64

structure ElfDynamicEntry64 where
  tag : UInt32
  value : UInt64

def ElfDynamicEntry64.read (mem : Memory) (addr : UInt64) : ElfDynamicEntry64 :=
  ⟨read32 mem addr, read64 mem (addr + 8)⟩

/-- The fields that the dynamic entries fill.  A null pointer is `0`. -/
structure ElfDynamic where
  dtCount : ℕ := 0
  rel64 : UInt64 := 0
  relSize : UInt64 := 0
  rela64 : UInt64 := 0
  relaSize : UInt64 := 0
  pltRela64 : UInt64 := 0
  pltRelSize : UInt64 := 0
  pltRelType : UInt32 := 0
  pltGot : UInt64 := 0
  dynsym64 : UInt64 := 0
  strtab : UInt64 := 0
  strtabSize : UInt64 := 0
  hash : UInt64 := 0
  init : UInt64 := 0
  fini : UInt64 := 0
  deriving DecidableEq

structure Elf where
  size : UInt64
  start : UInt64
  baseAddress : UInt64 := 0xFFFFFFFFFFFFFFFF
  endAddress : UInt64 := 0
  loadable : Bool := false
  dt64 : UInt64 := 0
  dtSize : UInt64 := 0
  dynamic : ElfDynamic := {}
  tls64 : UInt64 := 0
  deriving DecidableEq

/-- The constructor. -/
def Elf.new (addr size : UInt64) : Elf := { start := addr, size := size }

namespace Elf

variable (mem : Memory) (elf : Elf)

def isElf64 : Bool := mem (elf.start + 4) = 2

def programHeaderTableOffset : UInt64 := read64 mem (elf.start + 32)

def programHeaderTableEntrySize : UInt16 := read16 mem (elf.start + 54)

def programHeaderTableEntryCount : UInt16 := read16 mem (elf.start + 56)

/-- The address of an entry of the program header table. -/
def phdrAddress (i : ℕ) : UInt64 :=
  elf.start + elf.programHeaderTableOffset mem + UInt64.ofNat (i * 56)

def phdrs : List ElfProgramHeader64 :=
  (List.range (elf.programHeaderTableEntryCount mem).toNat).map fun i =>
    .read mem (elf.phdrAddress mem i)

end Elf

/-- The loop of `CheckRangeLoaded64`. -/
def checkRange (range : PointerAndSize) (opts : RangeLoadOptions) :
    List ElfProgramHeader64 → RangeLoadStatus
  | [] => .completelyAbsent
  | load :: rest =>
      if load.type ≠ typeLoad then checkRange range opts rest
      else
        let intersection := intersectMemoryRanges range load.range
        if intersection.size = 0 then checkRange range opts rest
        else if intersection.start = range.start ∧ intersection.size = range.size then
          match opts with
          | .writable => if load.flags &&& flagWritable ≠ 0 then .fullyLoaded else .optionsNotMet
          | .executable =>
              if load.flags &&& flagExecutable ≠ 0 then .fullyLoaded else .optionsNotMet
          | .none => .fullyLoaded
        else .partiallyLoaded

def Elf.checkRangeLoaded64 (mem : Memory) (elf : Elf) (rStart rSize : UInt64)
    (opts : RangeLoadOptions := .none) : RangeLoadStatus :=
  checkRange ⟨rStart, rSize⟩ opts (elf.phdrs mem)

/-! `ValidateParseDt64`. -/

def dtPltrelsz : UInt32 := 2
def dtPltgot : UInt32 := 3
def dtHash : UInt32 := 4
def dtStrtab : UInt32 := 5
def dtSymtab : UInt32 := 6
def dtRela : UInt32 := 7
def dtRelasz : UInt32 := 8
def dtRelaent : UInt32 := 9
def dtStrsz : UInt32 := 10
def dtSyment : UInt32 := 11
def dtInit : UInt32 := 12
def dtFini : UInt32 := 13
def dtRel : UInt32 := 17
def dtRelsz : UInt32 := 18
def dtRelent : UInt32 := 19
def dtPltrel : UInt32 := 20
def dtJmprel : UInt32 := 23
def dtMax : UInt32 := 30

/-- The `switch` over the tag of an entry. -/
def ElfDynamic.takeEntry (elf : ElfDynamic) (entry : ElfDynamicEntry64) :
    Except ElfValidationResult ElfDynamic :=
  let value := entry.value
  if entry.tag = dtRela then .ok { elf with rela64 := value }
  else if entry.tag = dtRelasz then .ok { elf with relaSize := value }
  else if entry.tag = dtRelaent then
    if value ≠ 24 then .error .structureSizeMismatch else .ok elf
  else if entry.tag = dtRel then .ok { elf with rel64 := value }
  else if entry.tag = dtRelsz then .ok { elf with relSize := value }
  else if entry.tag = dtRelent then
    if value ≠ 16 then .error .structureSizeMismatch else .ok elf
  else if entry.tag = dtJmprel then .ok { elf with pltRela64 := value }
  else if entry.tag = dtPltrelsz then .ok { elf with pltRelSize := value }
  else if entry.tag = dtPltrel then
    if value.toUInt32 = dtRel ∨ value.toUInt32 = dtRela then
      .ok { elf with pltRelType := value.toUInt32 }
    else .error .dtInvalidPltRelocationType
  else if entry.tag = dtPltgot then .ok { elf with pltGot := value }
  else if entry.tag = dtSymtab then .ok { elf with dynsym64 := value }
  else if entry.tag = dtSyment then
    if value ≠ 24 then .error .structureSizeMismatch else .ok elf
  else if entry.tag = dtStrtab then .ok { elf with strtab := value }
  else if entry.tag = dtStrsz then .ok { elf with strtabSize := value }
  else if entry.tag = dtHash then .ok { elf with hash := value }
  else if entry.tag = dtInit then .ok { elf with init := value }
  else if entry.tag = dtFini then .ok { elf with fini := value }
  else .ok elf

/-- `tagCounters`. -/
abbrev TagCounters := UInt32 → ℕ

def TagCounters.add (counters : TagCounters) (tag : UInt32) : TagCounters :=
  if tag < dtMax then fun t => if t = tag then counters t + 1 else counters t else counters

/-- The loop over the entries of a segment of such a size, for so many rounds at most. -/
def ElfDynamic.takeEntries (mem : Memory) (dtSize : UInt64) :
    ℕ → UInt64 → UInt64 → ℕ → TagCounters → ElfDynamic →
      Option (Except ElfValidationResult (TagCounters × ElfDynamic))
  | 0, _, _, _, _, _ => none
  | rounds + 1, cursor, offset, count, counters, elf =>
      let entry := ElfDynamicEntry64.read mem cursor
      let counters := counters.add entry.tag
      match elf.takeEntry entry with
      | .error e => some (.error e)
      | .ok elf =>
          let cursor := cursor + 16
          let count := count + 1
          let offset := offset + 16
          if offset > dtSize - 16 then some (.error .dtEntryOutOfBounds)
          else if (ElfDynamicEntry64.read mem cursor).tag = 0 then
            some (.ok (counters, { elf with dtCount := count }))
          else takeEntries mem dtSize rounds cursor offset count counters elf

/-- `DT_UNIQUE`. -/
def TagCounters.unique (counters : TagCounters) : List UInt32 → Except ElfValidationResult Unit
  | [] => .ok ()
  | tag :: tags =>
      if counters tag = 0 then .error .dtEntryMissing
      else if counters tag > 1 then .error .dtEntryMultiplicate
      else counters.unique tags

/-- `DT_IMPLY`. -/
def TagCounters.imply (counters : TagCounters) (tag : UInt32) (tags : List UInt32) :
    Except ElfValidationResult Unit :=
  if counters tag = 1 then counters.unique tags
  else if counters tag > 1 then .error .dtEntryMultiplicate
  else .ok ()

/-- `CHECK_LOADED`. -/
def Elf.checkLoaded (mem : Memory) (elf : Elf) (rStart rSize : UInt64)
    (opts : RangeLoadOptions := .none) : Except ElfValidationResult Unit :=
  match elf.checkRangeLoaded64 mem rStart rSize opts with
  | .completelyAbsent => .error .dtEntryAddressOutOfBounds
  | .partiallyLoaded => .error .dtEntryAddressInPartialLoad
  | .optionsNotMet => .error .dtEntryWrongSegmentFlags
  | .fullyLoaded => .ok ()

/-- What follows on the loop. -/
def Elf.checkEntries (mem : Memory) (elf : Elf) (counters : TagCounters) :
    Except ElfValidationResult Unit := do
  counters.unique [dtSymtab, dtStrtab, dtSyment, dtHash, dtStrsz]
  counters.imply dtRel [dtRelsz, dtRelent]
  counters.imply dtRela [dtRelasz, dtRelaent]
  counters.imply dtJmprel [dtPltrelsz, dtPltrel]
  if counters dtInit > 1 then throw .dtEntryMultiplicate
  if counters dtFini > 1 then throw .dtEntryMultiplicate
  elf.checkLoaded mem elf.dynamic.strtab elf.dynamic.strtabSize
  elf.checkLoaded mem elf.dynamic.hash 8
  elf.checkLoaded mem elf.dynamic.dynsym64 24
  if counters dtRel = 1 then elf.checkLoaded mem elf.dynamic.rel64 elf.dynamic.relSize
  if counters dtRela = 1 then elf.checkLoaded mem elf.dynamic.rela64 elf.dynamic.relaSize
  if counters dtJmprel = 1 then elf.checkLoaded mem elf.dynamic.pltRela64 elf.dynamic.pltRelSize
  if counters dtInit = 1 then elf.checkLoaded mem elf.dynamic.init 1 .executable
  if counters dtFini = 1 then elf.checkLoaded mem elf.dynamic.fini 1 .executable

/-- After `2 ^ 60` rounds the cursor is back where it was, and the loop never ends. -/
def Elf.validateParseDt64 (mem : Memory) (elf : Elf) (dts : UInt64) :
    Option (Except ElfValidationResult Elf) :=
  match elf.dynamic.takeEntries mem elf.dtSize (2 ^ 60) dts 0 0 fun _ => 0 with
  | none => none
  | some (.error e) => some (.error e)
  | some (.ok (counters, dynamic)) =>
      let elf := { elf with dynamic := dynamic }
      some ((elf.checkEntries mem counters).map fun _ => elf)

/-! `ValidateParseElf64`. -/

variable {σ : Type}

/-- `SegmentValidatorFunc`, on data that it may change. -/
abbrev SegmentValidator (σ : Type) := UInt64 → UInt64 → UInt32 → σ → Bool × σ

/-- The variables of the first loop. -/
structure Gathered (σ : Type) where
  elf : Elf
  dts : UInt64
  loadableCount : ℕ
  valdata : σ

/-- Without a validator, any segment will do. -/
def askValidator (segval : Option (SegmentValidator σ)) (phdr : ElfProgramHeader64) (valdata : σ) :
    Bool × σ :=
  match segval with
  | none => (true, valdata)
  | some segval => segval phdr.vAddr phdr.vSize phdr.flags valdata

/-- The loop over the segments before. -/
def overlaps (phdr : ElfProgramHeader64) (before : List ElfProgramHeader64) : Bool :=
  before.any fun p =>
    p.type = typeLoad ∧ (intersectMemoryRanges phdr.range p.range).size ≠ 0

/-- A load segment. -/
def Gathered.load (segval : Option (SegmentValidator σ)) (before : List ElfProgramHeader64)
    (phdr : ElfProgramHeader64) (g : Gathered σ) : Except ElfValidationResult (Gathered σ) :=
  if phdr.vAddr % 4096 ≠ phdr.offset % 4096 then .error .segmentNonCongruent
  else
    let answer := askValidator segval phdr g.valdata
    if !answer.1 then .error .segmentRangeInvalid
    else if overlaps phdr before then .error .segmentsOverlap
    else
      .ok { g with
        elf := { g.elf with
          baseAddress := min phdr.vAddr g.elf.baseAddress
          endAddress := max (phdr.vAddr + phdr.vSize) g.elf.endAddress }
        loadableCount := g.loadableCount + 1
        valdata := answer.2 }

/-- The body of the first loop, for the segment at an address. -/
def Gathered.take (segval : Option (SegmentValidator σ)) (before : List ElfProgramHeader64)
    (address : UInt64) (phdr : ElfProgramHeader64) (g : Gathered σ) :
    Except ElfValidationResult (Gathered σ) :=
  if phdr.offset ≥ g.elf.size then .error .segmentOutOfBounds
  else if phdr.offset + phdr.pSize > g.elf.size then .error .segmentOutOfBounds
  else if phdr.type = typeLoad then g.load segval before phdr
  else if phdr.type = typeDynamic then
    if g.elf.dt64 ≠ 0 then .error .dynamicSegmentMultiplicate
    else
      .ok { g with
        elf := { g.elf with dt64 := phdr.vAddr, dtSize := phdr.vSize }
        dts := g.elf.start + phdr.offset }
  else if phdr.type = typeTls then
    if g.elf.tls64 ≠ 0 then .error .dynamicSegmentMultiplicate
    else .ok { g with elf := { g.elf with tls64 := address } }
  else .ok g

section Gathered

variable {segval : Option (SegmentValidator σ)} {before : List ElfProgramHeader64}
  {address : UInt64} {phdr : ElfProgramHeader64} {g g' : Gathered σ}

/-- A segment to load that is accepted. -/
theorem Gathered.load_eq_ok (h : g.load segval before phdr = .ok g') :
    overlaps phdr before = false ∧ ∃ valdata,
      g' = ⟨{ g.elf with
          baseAddress := min phdr.vAddr g.elf.baseAddress
          endAddress := max (phdr.vAddr + phdr.vSize) g.elf.endAddress },
        g.dts, g.loadableCount + 1, valdata⟩ := by
  unfold Gathered.load at h
  split at h
  next => exact nomatch h
  next =>
    dsimp only at h
    split at h
    next => exact nomatch h
    next =>
      split at h
      next => exact nomatch h
      next hover => exact ⟨eq_false_of_ne_true hover, _, (Except.ok.inj h).symm⟩

/-- Any segment that is accepted is in the file. -/
theorem Gathered.take_eq_ok (h : g.take segval before address phdr = .ok g') :
    phdr.offset + phdr.pSize ≤ g.elf.size ∧
      (phdr.type = typeLoad ∧ g.load segval before phdr = .ok g' ∨
        phdr.type = typeDynamic ∧ g' = { g with
          elf := { g.elf with dt64 := phdr.vAddr, dtSize := phdr.vSize }
          dts := g.elf.start + phdr.offset } ∨
        phdr.type ≠ typeLoad ∧ phdr.type ≠ typeDynamic ∧
          ∃ tls64, g' = { g with elf := { g.elf with tls64 := tls64 } }) := by
  unfold Gathered.take at h
  split at h
  next => exact nomatch h
  next =>
    split at h
    next => exact nomatch h
    next hsize =>
      refine ⟨UInt64.not_lt.mp hsize, ?_⟩
      split at h
      next hload => exact .inl ⟨hload, h⟩
      next hload =>
        split at h
        next hdynamic =>
          split at h
          next => exact nomatch h
          next => exact .inr (.inl ⟨hdynamic, (Except.ok.inj h).symm⟩)
        next hdynamic =>
          split at h
          next =>
            split at h
            next => exact nomatch h
            next => exact .inr (.inr ⟨hload, hdynamic, address, (Except.ok.inj h).symm⟩)
          next => exact .inr (.inr ⟨hload, hdynamic, g.elf.tls64, (Except.ok.inj h).symm⟩)

end Gathered

/-- The first loop, from the segments before on. -/
def Gathered.takeAll (mem : Memory) (segval : Option (SegmentValidator σ)) :
    List ElfProgramHeader64 → List ElfProgramHeader64 → Gathered σ →
      Except ElfValidationResult (Gathered σ)
  | _, [], g => .ok g
  | before, phdr :: rest, g =>
      match g.take segval before (g.elf.phdrAddress mem before.length) phdr with
      | .error e => .error e
      | .ok g => takeAll mem segval (before ++ [phdr]) rest g

/-- The second loop. -/
def Elf.checkNonload (mem : Memory) (elf : Elf) :
    List ElfProgramHeader64 → Except ElfValidationResult Unit
  | [] => .ok ()
  | nonload :: rest =>
      if nonload.type = typeLoad ∨ nonload.type = typeTls then elf.checkNonload mem rest
      else
        match elf.checkRangeLoaded64 mem nonload.vAddr nonload.vSize with
        | .completelyAbsent => .error .segmentOutOfLoad
        | .partiallyLoaded => .error .segmentInPartialLoad
        | _ => elf.checkNonload mem rest

/-- The object where the image is accepted.  The class of the image is promised. -/
def Elf.validateParseElf64 (mem : Memory) (segval : Option (SegmentValidator σ)) (valdata : σ)
    (elf : Elf) : Option (Except ElfValidationResult Elf) :=
  if !elf.isElf64 mem then none
  else if elf.programHeaderTableEntrySize mem ≠ 56 then some (.error .structureSizeMismatch)
  else if elf.programHeaderTableOffset mem > elf.size - 56 then
    some (.error .segmentHeadersOutOfBounds)
  else if elf.programHeaderTableOffset mem +
      UInt64.ofNat (elf.programHeaderTableEntryCount mem).toNat * 56 > elf.size then
    some (.error .segmentHeadersOutOfBounds)
  else
    match Gathered.takeAll mem segval [] (elf.phdrs mem) ⟨elf, 0, 0, valdata⟩ with
    | .error e => some (.error e)
    | .ok g =>
        match g.elf.checkNonload mem (elf.phdrs mem) with
        | .error e => some (.error e)
        | .ok () =>
            match if g.dts ≠ 0 then g.elf.validateParseDt64 mem g.dts else some (.ok g.elf) with
            | none => none
            | some (.error e) => some (.error e)
            | some (.ok elf) =>
                if g.loadableCount > 0 then some (.ok { elf with loadable := true })
                else some (.error .unloadable)

end Beelzebub.Execution
