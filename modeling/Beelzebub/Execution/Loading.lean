import Beelzebub.Execution.Relocation

/-!
# Loading of images

The segments are mapped, and then the tables of relocations are gone through.  The functions that
map and unmap are handed over by the loader, and may do anything to the memory and to the data of
the loader; the relocation itself is left to the architecture.  What is done is written down.
-/

namespace Beelzebub.Execution

/-! ## The code -/

inductive RelocationFormat where
  | rel
  | rela

namespace RelocationFormat

/-- `sizeof(ElfRelEntry_64)` and `sizeof(ElfRelaEntry_64)`. -/
def entrySize : RelocationFormat → UInt64
  | rel => 16
  | rela => 24

/-- The append of the entry at an address. -/
def append (ram : Memory) (addr : UInt64) : RelocationFormat → UInt64
  | rel => 0
  | rela => read64 ram (addr + 16)

end RelocationFormat

structure ElfRelEntry64 where
  offset : UInt64
  type : UInt8
  symbol : UInt32

def ElfRelEntry64.read (ram : Memory) (addr : UInt64) : ElfRelEntry64 where
  offset := read64 ram addr
  type := ram (addr + 8)
  symbol := read32 ram (addr + 12)

/-- A table of so many bytes. -/
structure RelocationTable where
  start : UInt64
  size : UInt64
  format : RelocationFormat

/-- The tables that there are, in the order that they are gone through. -/
def Image.relocationTables (image : Image) : List RelocationTable :=
  let dynamic := image.elf.dynamic
  let tables : List RelocationTable :=
    [⟨dynamic.rel64, dynamic.relSize, .rel⟩, ⟨dynamic.rela64, dynamic.relaSize, .rela⟩,
      ⟨dynamic.pltRela64, dynamic.pltRelSize, if dynamic.pltRelType = dtRel then .rel else .rela⟩]
  tables.filter fun table => table.start ≠ 0

/-- Something that loading does. -/
inductive LoadEvent where
  | segmap (phdr : ElfProgramHeader64) (mapped : Bool)
  | relocation (entry : UInt64) (result : ElfLoadResult)
  | segunmap (phdr : ElfProgramHeader64)
  deriving DecidableEq

variable {σ : Type}

structure LoadState (σ : Type) where
  ram : Memory
  lddata : σ
  events : List LoadEvent

/-- `SegmentMapper64Func` and `SegmentUnmapper64Func`. -/
structure Loader (σ : Type) where
  segmap : UInt64 → UInt64 → ElfProgramHeader64 → Memory → σ → Bool × Memory × σ
  segunmap : UInt64 → ElfProgramHeader64 → Memory → σ → Memory × σ

/-- `PerformRelocation64`, for an offset, an append, a type and a symbol. -/
abbrev Relocator (σ : Type) := UInt64 → UInt64 → UInt8 → UInt32 → Memory → σ → Relocated σ

/-- The relocation of an entry of a table. -/
def LoadState.relocate (perform : Relocator σ) (format : RelocationFormat) (entry : UInt64)
    (st : LoadState σ) : ElfLoadResult × LoadState σ :=
  let rel := ElfRelEntry64.read st.ram entry
  let done := perform rel.offset (format.append st.ram entry) rel.type rel.symbol st.ram st.lddata
  let ram := match done.store with
    | none => st.ram
    | some store => store.apply st.ram
  (done.result, ⟨ram, done.lddata, st.events ++ [.relocation entry done.result]⟩)

/-- The loop over a table, with so many bytes to go, for so many rounds at most. -/
def relocateTable (perform : Relocator σ) (table : RelocationTable) :
    ℕ → UInt64 → UInt64 → LoadState σ → Option (ElfLoadResult × LoadState σ)
  | 0, _, _, _ => none
  | rounds + 1, i, offset, st =>
      if offset > 0 then
        let done := st.relocate perform table.format (table.start + i * table.format.entrySize)
        if done.1 ≠ .success then some done
        else relocateTable perform table rounds (i + 1) (offset - table.format.entrySize) done.2
      else some (.success, st)

def relocateTables (perform : Relocator σ) (rounds : ℕ) :
    List RelocationTable → LoadState σ → Option (ElfLoadResult × LoadState σ)
  | [], st => some (.success, st)
  | table :: rest, st =>
      match relocateTable perform table rounds 0 table.size st with
      | none => none
      | some done =>
          if done.1 ≠ .success then some done else relocateTables perform rounds rest done.2

namespace Image

variable (loader : Loader σ) (image : Image)

/-- `phdrs[j]`. -/
def phdr (j : ℕ) : ElfProgramHeader64 := .read image.mem (image.elf.phdrAddress image.mem j)

def segmap (phdr : ElfProgramHeader64) (st : LoadState σ) : Bool × LoadState σ :=
  let answer := loader.segmap image.locationDifference image.elf.start phdr st.ram st.lddata
  (answer.1, ⟨answer.2.1, answer.2.2, st.events ++ [.segmap phdr answer.1]⟩)

def segunmap (phdr : ElfProgramHeader64) (st : LoadState σ) : LoadState σ :=
  let answer := loader.segunmap image.locationDifference phdr st.ram st.lddata
  ⟨answer.1, answer.2, st.events ++ [.segunmap phdr]⟩

/-- The loop over the segments, with so many to go: whether it came to its end, and the index at
which it stopped. -/
def mapSegments : ℕ → ℕ → LoadState σ → Bool × ℕ × LoadState σ
  | 0, j, st => (true, j, st)
  | rest + 1, j, st =>
      if (image.phdr j).type ≠ typeLoad then mapSegments rest (j + 1) st
      else
        let done := image.segmap loader (image.phdr j) st
        if !done.1 then (false, j, done.2)
        else mapSegments rest (j + 1) done.2

/-- The loop behind `rollbackMapping`. -/
def rollbackMapping : ℕ → LoadState σ → LoadState σ
  | 0, st => st
  | j + 1, st =>
      if (image.phdr j).type ≠ typeLoad then rollbackMapping j st
      else rollbackMapping j (image.segunmap loader (image.phdr j) st)

/-- `LoadAndValidate64`. -/
def loadAndValidate64 (perform : Relocator σ) (rounds : ℕ) (ram : Memory) (lddata : σ) :
    Option (ElfLoadResult × LoadState σ) :=
  if !image.elf.loadable then some (.unloadable, ⟨ram, lddata, []⟩)
  else
    let mapped := image.mapSegments loader
      (image.elf.programHeaderTableEntryCount image.mem).toNat 0 ⟨ram, lddata, []⟩
    if !mapped.1 then some (.loadFailure, image.rollbackMapping loader mapped.2.1 mapped.2.2)
    else
      match relocateTables perform rounds image.relocationTables mapped.2.2 with
      | none => none
      | some done =>
          if done.1 ≠ .success then
            some (done.1, image.rollbackMapping loader mapped.2.1 done.2)
          else some (.success, done.2)

end Image

/-! ## What is asked -/

/-- The load segments. -/
def Image.loads (image : Image) : List ElfProgramHeader64 :=
  image.phdrs.filter fun phdr => phdr.type = typeLoad

/-- What becomes of an image with such load segments, and what is done for it. -/
inductive Exact (loads : List ElfProgramHeader64) : ElfLoadResult → List LoadEvent → Prop
  | loaded (entries : List UInt64) :
      Exact loads .success
        (loads.map (.segmap · true) ++ entries.map (.relocation · .success))
  | unmapped (before after : List ElfProgramHeader64) (phdr : ElfProgramHeader64) :
      loads = before ++ phdr :: after →
      Exact loads .loadFailure
        (before.map (.segmap · true) ++ [.segmap phdr false] ++ before.reverse.map .segunmap)
  | unrelocated (entries : List UInt64) (entry : UInt64) (result : ElfLoadResult) :
      result ≠ .success →
      Exact loads result
        (loads.map (.segmap · true) ++
          (entries.map (.relocation · .success) ++ [.relocation entry result]) ++
          loads.reverse.map .segunmap)

/-! ## The segments -/

section Segments

variable {loader : Loader σ} {image : Image}

/-- The load segments before an index. -/
def Image.loadsBefore (image : Image) (j : ℕ) : List ElfProgramHeader64 :=
  ((List.range j).map image.phdr).filter fun phdr => phdr.type = typeLoad

theorem loadsBefore_count (image : Image) :
    image.loadsBefore (image.elf.programHeaderTableEntryCount image.mem).toNat = image.loads := rfl

theorem loadsBefore_load {j : ℕ} (h : (image.phdr j).type = typeLoad) :
    image.loadsBefore (j + 1) = image.loadsBefore j ++ [image.phdr j] := by
  unfold Image.loadsBefore
  rw [List.range_succ, List.map_append, List.filter_append]
  simp [h]

theorem loadsBefore_other {j : ℕ} (h : (image.phdr j).type ≠ typeLoad) :
    image.loadsBefore (j + 1) = image.loadsBefore j := by
  unfold Image.loadsBefore
  rw [List.range_succ, List.map_append, List.filter_append]
  simp [h]

theorem loadsBefore_add (image : Image) (j n : ℕ) :
    ∃ after, image.loadsBefore (j + n) = image.loadsBefore j ++ after := by
  induction n with
  | zero => exact ⟨[], (List.append_nil _).symm⟩
  | succ n ih =>
      obtain ⟨after, hafter⟩ := ih
      rw [← Nat.add_assoc]
      by_cases h : (image.phdr (j + n)).type = typeLoad
      · rw [loadsBefore_load h, hafter, List.append_assoc]
        exact ⟨_, rfl⟩
      · rw [loadsBefore_other h]
        exact ⟨after, hafter⟩

/-- The rollback unmaps the load segments before the index, the last one first. -/
theorem rollbackMapping_events (j : ℕ) (st : LoadState σ) :
    (image.rollbackMapping loader j st).events =
      st.events ++ (image.loadsBefore j).reverse.map .segunmap := by
  induction j generalizing st with
  | zero => exact (List.append_nil _).symm
  | succ j ih =>
      rw [Image.rollbackMapping]
      by_cases h : (image.phdr j).type = typeLoad
      · rw [if_neg (not_not.mpr h), ih, loadsBefore_load h, List.reverse_append, List.map_append]
        exact List.append_assoc _ _ _
      · rw [if_pos h, ih, loadsBefore_other h]

/-- The loop has mapped the load segments before the index at which it stopped, and failed at a
load segment if it did not come to its end. -/
theorem mapSegments_cases (loader : Loader σ) (image : Image) (rest j : ℕ) (st : LoadState σ)
    (h : st.events = (image.loadsBefore j).map (.segmap · true)) :
    (∃ st', image.mapSegments loader rest j st = (true, j + rest, st') ∧
      st'.events = (image.loadsBefore (j + rest)).map (.segmap · true)) ∨
    ∃ i st', image.mapSegments loader rest j st = (false, i, st') ∧ i < j + rest ∧
      (image.phdr i).type = typeLoad ∧
      st'.events =
        (image.loadsBefore i).map (.segmap · true) ++ [.segmap (image.phdr i) false] := by
  induction rest generalizing j st with
  | zero => exact .inl ⟨st, rfl, h⟩
  | succ rest ih =>
      rw [Image.mapSegments, Nat.add_comm rest 1, ← Nat.add_assoc]
      by_cases hload : (image.phdr j).type = typeLoad
      · rw [if_neg (not_not.mpr hload)]
        dsimp only
        cases hmapped : (image.segmap loader (image.phdr j) st).1 with
        | false =>
            refine .inr ⟨j, _, rfl, by omega, hload, ?_⟩
            rw [← h, ← hmapped]
            rfl
        | true =>
            refine ih (j + 1) _ ?_
            rw [loadsBefore_load hload, List.map_append, ← h, List.map_singleton, ← hmapped]
            rfl
      · rw [if_pos hload]
        refine ih (j + 1) _ ?_
        rw [loadsBefore_other hload]
        exact h

end Segments

/-! ## The tables -/

section Tables

variable {perform : Relocator σ}

/-- All the relocations succeed, or all of them up to the last one. -/
def Performed (st : LoadState σ) (done : ElfLoadResult × LoadState σ) : Prop :=
  ∃ entries : List UInt64,
    (done.1 = .success ∧
      done.2.events = st.events ++ entries.map (.relocation · .success)) ∨
    (done.1 ≠ .success ∧ ∃ entry,
      done.2.events = st.events ++
        (entries.map (.relocation · .success) ++ [.relocation entry done.1]))

/-- What follows on relocations that succeeded. -/
theorem Performed.after {st st' : LoadState σ} {done : ElfLoadResult × LoadState σ}
    (h : Performed st' done) (entries : List UInt64)
    (hst : st'.events = st.events ++ entries.map (.relocation · .success)) : Performed st done := by
  obtain ⟨more, ⟨hres, hevents⟩ | ⟨hres, entry, hevents⟩⟩ := h
  · refine ⟨entries ++ more, .inl ⟨hres, ?_⟩⟩
    rw [hevents, hst, List.map_append, List.append_assoc]
  · refine ⟨entries ++ more, .inr ⟨hres, entry, ?_⟩⟩
    rw [hevents, hst, List.map_append, List.append_assoc, List.append_assoc]

theorem relocateTable_performed {table : RelocationTable} {rounds : ℕ} {i offset : UInt64}
    {st : LoadState σ} {done : ElfLoadResult × LoadState σ}
    (h : relocateTable perform table rounds i offset st = some done) : Performed st done := by
  induction rounds generalizing i offset st with
  | zero => exact nomatch h
  | succ rounds ih =>
      rw [relocateTable] at h
      split at h
      next =>
        dsimp only at h
        split at h
        next hres =>
          obtain rfl := Option.some.inj h
          exact ⟨[], .inr ⟨hres, _, rfl⟩⟩
        next hres =>
          refine (ih h).after [table.start + i * table.format.entrySize] ?_
          rw [List.map_singleton, ← not_not.mp hres]
          rfl
      next =>
        obtain rfl := Option.some.inj h
        exact ⟨[], .inl ⟨rfl, (List.append_nil _).symm⟩⟩

theorem relocateTables_performed {rounds : ℕ} {tables : List RelocationTable} {st : LoadState σ}
    {done : ElfLoadResult × LoadState σ}
    (h : relocateTables perform rounds tables st = some done) : Performed st done := by
  induction tables generalizing st with
  | nil =>
      obtain rfl := Option.some.inj h
      exact ⟨[], .inl ⟨rfl, (List.append_nil _).symm⟩⟩
  | cons table rest ih =>
      rw [relocateTables] at h
      split at h
      next => exact nomatch h
      next first hfirst =>
        have hperformed := relocateTable_performed hfirst
        split at h
        next =>
          obtain rfl := Option.some.inj h
          exact hperformed
        next hres =>
          obtain ⟨entries, ⟨_, hevents⟩ | ⟨hfailed, _⟩⟩ := hperformed
          · exact (ih h).after entries hevents
          · exact absurd hfailed hres

end Tables

/-! ## The rollback -/

/-- A load that is tried is rolled back exactly; an image that is not loadable is left alone. -/
theorem loadAndValidate64_exact {image : Image} {loader : Loader σ} {perform : Relocator σ}
    {rounds : ℕ} {ram : Memory} {lddata : σ} {result : ElfLoadResult} {st : LoadState σ}
    (h : image.loadAndValidate64 loader perform rounds ram lddata = some (result, st)) :
    if image.elf.loadable then Exact image.loads result st.events
    else result = .unloadable ∧ st = ⟨ram, lddata, []⟩ := by
  unfold Image.loadAndValidate64 at h
  cases hloadable : image.elf.loadable with
  | false =>
      rw [hloadable] at h
      cases h
      exact ⟨rfl, rfl⟩
  | true =>
      rw [hloadable, if_neg (by decide)] at h
      show Exact image.loads result st.events
      rcases mapSegments_cases loader image
          (image.elf.programHeaderTableEntryCount image.mem).toNat 0 ⟨ram, lddata, []⟩ rfl
        with ⟨st', hmapped, hevents⟩ | ⟨i, st', hmapped, hi, hload, hevents⟩
      · rw [Nat.zero_add] at hmapped hevents
        dsimp only at h
        rw [hmapped] at h
        dsimp only at h
        rw [if_neg (by decide)] at h
        rw [loadsBefore_count] at hevents
        split at h
        next => exact nomatch h
        next done hdone =>
          obtain ⟨entries, ⟨hres, hperformed⟩ | ⟨hres, entry, hperformed⟩⟩ :=
            relocateTables_performed hdone
          · rw [if_neg (not_not.mpr hres)] at h
            cases h
            rw [hperformed, hevents]
            exact .loaded entries
          · rw [if_pos hres] at h
            cases h
            rw [rollbackMapping_events, hperformed, hevents, loadsBefore_count]
            exact .unrelocated entries entry _ hres
      · rw [Nat.zero_add] at hi
        dsimp only at h
        rw [hmapped] at h
        cases h
        rw [rollbackMapping_events, hevents]
        obtain ⟨after, hafter⟩ := loadsBefore_add image (i + 1)
          ((image.elf.programHeaderTableEntryCount image.mem).toNat - (i + 1))
        rw [Nat.add_sub_of_le hi, loadsBefore_count, loadsBefore_load hload,
          List.append_assoc] at hafter
        exact .unmapped _ after _ hafter

/-! An image with a load segment and a dynamic one at `176`, at `4096` in memory, and with a table
of relocations of such a size. -/

def withRelocations (relSize : ℕ) : Memory :=
  let header1 := [0x7F, 0x45, 0x4C, 0x46, 2, 1, 1] ++ bytesOf 9 0 ++
    bytesOf 2 2 ++ bytesOf 2 62 ++ bytesOf 4 1
  let header2 := bytesOf 8 0x400000 ++ bytesOf 8 64 ++ bytesOf 8 0
  let header3 := bytesOf 4 0 ++ bytesOf 2 64 ++ bytesOf 2 56 ++ bytesOf 2 2 ++ bytesOf 6 0
  let load := bytesOf 4 1 ++ bytesOf 4 6 ++ bytesOf 8 0 ++ bytesOf 8 0x400000 ++
    bytesOf 8 0 ++ bytesOf 8 320 ++ bytesOf 8 4096 ++ bytesOf 8 4096
  let dynamic := bytesOf 4 2 ++ bytesOf 4 4 ++ bytesOf 8 176 ++ bytesOf 8 0x4000B0 ++
    bytesOf 8 0 ++ bytesOf 8 144 ++ bytesOf 8 144 ++ bytesOf 8 8
  let entries := bytesOf 8 6 ++ bytesOf 8 0x400000 ++ bytesOf 8 11 ++ bytesOf 8 24 ++
    bytesOf 8 4 ++ bytesOf 8 0x400000 ++ bytesOf 8 5 ++ bytesOf 8 0x400000 ++
    bytesOf 8 10 ++ bytesOf 8 1 ++ bytesOf 8 17 ++ bytesOf 8 0x400800 ++
    bytesOf 8 18 ++ bytesOf 8 relSize ++ bytesOf 8 19 ++ bytesOf 8 16 ++ bytesOf 16 0
  fun addr =>
    (header1 ++ header2 ++ header3 ++ load ++ dynamic ++ entries).getD (addr.toNat - 4096) 0

def withRelocationsElf (relSize : UInt64) : Elf :=
  { Elf.new 4096 320 with
    baseAddress := 0x400000, endAddress := 0x401000, loadable := true
    dt64 := 0x4000B0, dtSize := 144
    dynamic :=
      { dtCount := 8, rel64 := 0x400800, relSize := relSize, dynsym64 := 0x400000
        strtab := 0x400000, strtabSize := 1, hash := 0x400000 } }

def zeros : Memory := fun _ => 0

/-- A loader for which every segment is mapped. -/
def agreeing : Loader Unit where
  segmap := fun _ _ _ ram lddata => (true, ram, lddata)
  segunmap := fun _ _ ram lddata => (ram, lddata)

/-- The relocation is of no known type. -/
def unknownRelocation : Memory := fun addr => if addr = 0x400808 then 200 else 0

/-- The image with one relocation. -/
def relocatable : Image := { mem := withRelocations 16, elf := withRelocationsElf 16 }

theorem loadAndValidate64_exact_unknown : ∃ st,
    relocatable.loadAndValidate64 agreeing (relocatable.performRelocation64 none) 2
      unknownRelocation () = some (.unknownRelocationType, st) ∧
    if relocatable.elf.loadable then Exact relocatable.loads .unknownRelocationType st.events
    else ElfLoadResult.unknownRelocationType = .unloadable ∧ st = ⟨unknownRelocation, (), []⟩ := by
  have hresult : (relocatable.loadAndValidate64 agreeing (relocatable.performRelocation64 none) 2
      unknownRelocation ()).map Prod.fst = some .unknownRelocationType := by decide +kernel
  obtain ⟨⟨result, st⟩, hrun, hfst⟩ := Option.map_eq_some_iff.mp hresult
  obtain rfl : result = .unknownRelocationType := hfst
  exact ⟨st, hrun, loadAndValidate64_exact hrun⟩

theorem Exact.ne_nil {loads : List ElfProgramHeader64} {result : ElfLoadResult}
    {events : List LoadEvent} (h : Exact loads result events) (hresult : result = .unloadable) :
    events ≠ [] := by
  cases h with
  | loaded entries => exact nomatch hresult
  | unmapped before after phdr _ => exact nomatch hresult
  | unrelocated entries entry _ _ => simp

/-- An image that was not validated is no failed load. -/
theorem not_exact : ¬ ∀ (image : Image) (loader : Loader Unit) (perform : Relocator Unit)
    (rounds : ℕ) (ram : Memory) (result : ElfLoadResult) (st : LoadState Unit),
    image.loadAndValidate64 loader perform rounds ram () = some (result, st) →
    Exact image.loads result st.events := by
  intro h
  have hexact := h { mem := zeros, elf := Elf.new 4096 64 } agreeing
    (fun _ _ _ _ _ _ => ⟨.success, none, ()⟩) 1 zeros .unloadable ⟨zeros, (), []⟩ rfl
  exact hexact.ne_nil rfl rfl

end Beelzebub.Execution
