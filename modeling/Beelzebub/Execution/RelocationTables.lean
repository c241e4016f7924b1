import Beelzebub.Execution.Loading

/-!
# The tables of relocations

The loops count the bytes of a table down, and end when there are none left.  A size that is not a
multiple of the size of an entry is counted past zero.
-/

namespace Beelzebub.Execution

variable {σ : Type}

/-! ## What is asked -/

/-- The entries that lie in a table. -/
def RelocationTable.entries (table : RelocationTable) : List UInt64 :=
  (List.range (table.size.toNat / table.format.entrySize.toNat)).map fun i =>
    table.start + UInt64.ofNat i * table.format.entrySize

/-- The entries of all the tables, in order. -/
def Image.declared (image : Image) : List UInt64 :=
  image.relocationTables.flatMap RelocationTable.entries

/-- The entries that were read. -/
def entriesRead (events : List LoadEvent) : List UInt64 :=
  events.filterMap fun event =>
    match event with
    | .relocation entry _ => some entry
    | _ => none

/-- The loops end whatever the memory holds, and read the declared entries, up to the first one that
fails. -/
def ProcessesTables (image : Image) : Prop :=
  ∀ {σ : Type} (loader : Loader σ) (symres : Option (SymbolResolver σ)) (ram : Memory) (lddata : σ),
    ∃ rounds result st,
      image.loadAndValidate64 loader (image.performRelocation64 symres) rounds ram lddata =
        some (result, st) ∧
      entriesRead st.events <+: image.declared ∧
      (result = .success → entriesRead st.events = image.declared)

/-! ## What is read -/

theorem entriesRead_append (events more : List LoadEvent) :
    entriesRead (events ++ more) = entriesRead events ++ entriesRead more :=
  List.filterMap_append

theorem entriesRead_segmap (phdrs : List ElfProgramHeader64) (mapped : Bool) :
    entriesRead (phdrs.map (.segmap · mapped)) = [] := by
  induction phdrs with
  | nil => rfl
  | cons phdr rest ih => exact ih

theorem entriesRead_segunmap (phdrs : List ElfProgramHeader64) :
    entriesRead (phdrs.map .segunmap) = [] := by
  induction phdrs with
  | nil => rfl
  | cons phdr rest ih => exact ih

/-- The rollback reads no entry. -/
theorem entriesRead_rollback (loader : Loader σ) (image : Image) (j : ℕ) (st : LoadState σ) :
    entriesRead (image.rollbackMapping loader j st).events = entriesRead st.events := by
  rw [rollbackMapping_events, entriesRead_append, entriesRead_segunmap, List.append_nil]

/-! ## Tables of whole entries -/

section Whole

variable {perform : Relocator σ}

theorem entrySize_pos (format : RelocationFormat) : 0 < format.entrySize.toNat := by
  cases format with
  | rel => decide
  | rela => decide

/-- So many entries of a table, from an index on. -/
def RelocationTable.entriesFrom (table : RelocationTable) (i k : ℕ) : List UInt64 :=
  (List.range' i k).map fun i => table.start + UInt64.ofNat i * table.format.entrySize

theorem entriesFrom_zero (table : RelocationTable) :
    table.entriesFrom 0 (table.size.toNat / table.format.entrySize.toNat) = table.entries := by
  unfold RelocationTable.entriesFrom RelocationTable.entries
  rw [List.range_eq_range']

theorem entriesFrom_succ (table : RelocationTable) (i k : ℕ) :
    table.entriesFrom i (k + 1) =
      (table.start + UInt64.ofNat i * table.format.entrySize) :: table.entriesFrom (i + 1) k := by
  unfold RelocationTable.entriesFrom
  rw [List.range'_succ, List.map_cons]

/-- One round. -/
theorem relocateTable_round {table : RelocationTable} {offset : UInt64} (rounds i : ℕ)
    (st : LoadState σ) (hoffset : 0 < offset.toNat) :
    let done := st.relocate perform table.format
      (table.start + UInt64.ofNat i * table.format.entrySize)
    relocateTable perform table (rounds + 1) (UInt64.ofNat i) offset st =
      if done.1 ≠ .success then some done
      else relocateTable perform table rounds (UInt64.ofNat (i + 1))
        (offset - table.format.entrySize) done.2 := by
  intro done
  have hpos : offset > 0 := UInt64.lt_iff_toNat_lt.mpr (UInt64.toNat_zero ▸ hoffset)
  rw [relocateTable, if_pos hpos, UInt64.ofNat_add]
  rfl

/-- What the loop over the table has read, of the entries that it had to read. -/
def Went (st : LoadState σ) (entries : List UInt64) (done : ElfLoadResult × LoadState σ) : Prop :=
  ∃ read, entriesRead done.2.events = entriesRead st.events ++ read ∧ read <+: entries ∧
    (done.1 = .success → read = entries)

theorem Went.nil (st : LoadState σ) : Went st [] (.success, st) :=
  ⟨[], (List.append_nil _).symm, List.nil_prefix, fun _ => rfl⟩

theorem relocate_events (perform : Relocator σ) (format : RelocationFormat) (entry : UInt64)
    (st : LoadState σ) :
    entriesRead (st.relocate perform format entry).2.events = entriesRead st.events ++ [entry] :=
  entriesRead_append _ _

theorem Went.append {st st' : LoadState σ} {done : ElfLoadResult × LoadState σ}
    {first rest : List UInt64} (h : Went st' rest done)
    (hst : entriesRead st'.events = entriesRead st.events ++ first) :
    Went st (first ++ rest) done := by
  obtain ⟨read, hread, hpre, hall⟩ := h
  refine ⟨first ++ read, ?_, List.prefix_append_right_inj first |>.mpr hpre, ?_⟩
  · rw [hread, hst, List.append_assoc]
  · intro hres
    rw [hall hres]

theorem Went.stop {st : LoadState σ} {done : ElfLoadResult × LoadState σ} {entries : List UInt64}
    (h : Went st entries done) (hres : done.1 ≠ .success) (more : List UInt64) :
    Went st (entries ++ more) done := by
  obtain ⟨read, hread, hpre, _⟩ := h
  exact ⟨read, hread, hpre.trans (List.prefix_append _ _), fun h => absurd h hres⟩

/-- With so many entries to go, the loop ends. -/
theorem relocateTable_went (perform : Relocator σ) (table : RelocationTable) {rounds k : ℕ}
    (hk : k < rounds) (i : ℕ) {offset : UInt64}
    (hoffset : offset.toNat = k * table.format.entrySize.toNat) (st : LoadState σ) :
    ∃ done, relocateTable perform table rounds (UInt64.ofNat i) offset st = some done ∧
      Went st (table.entriesFrom i k) done := by
  have hpos := entrySize_pos table.format
  induction k generalizing rounds i offset st with
  | zero =>
      obtain ⟨rounds, rfl⟩ := Nat.exists_eq_add_one_of_ne_zero (Nat.ne_of_gt hk)
      have hzero : ¬ offset > 0 := by
        rw [Nat.zero_mul] at hoffset
        exact fun h => absurd (UInt64.lt_iff_toNat_lt.mp h) (Nat.not_lt.mpr (Nat.le_of_eq hoffset))
      rw [relocateTable, if_neg hzero]
      exact ⟨_, rfl, Went.nil st⟩
  | succ k ih =>
      obtain ⟨rounds, rfl⟩ := Nat.exists_eq_add_one_of_ne_zero (Nat.ne_of_gt (Nat.zero_lt_of_lt hk))
      rw [Nat.add_mul, Nat.one_mul] at hoffset
      rw [relocateTable_round rounds i st (by omega), entriesFrom_succ]
      have hevents := relocate_events perform table.format
        (table.start + UInt64.ofNat i * table.format.entrySize) st
      split
      next hres =>
        refine ⟨_, rfl, ?_⟩
        have hread : Went st [table.start + UInt64.ofNat i * table.format.entrySize]
            (st.relocate perform table.format
              (table.start + UInt64.ofNat i * table.format.entrySize)) :=
          ⟨_, hevents, List.prefix_refl _, fun _ => rfl⟩
        exact hread.stop hres _
      next hres =>
        have hle : table.format.entrySize ≤ offset := UInt64.le_iff_toNat_le.mpr (by omega)
        have hrest :
            (offset - table.format.entrySize).toNat = k * table.format.entrySize.toNat := by
          rw [UInt64.toNat_sub_of_le _ _ hle]
          omega
        obtain ⟨done, hdone, hwent⟩ := ih (Nat.lt_of_succ_lt_succ hk) (i + 1) hrest
          (st.relocate perform table.format
            (table.start + UInt64.ofNat i * table.format.entrySize)).2
        exact ⟨done, hdone, hwent.append hevents⟩

theorem relocateTables_went (perform : Relocator σ) {tables : List RelocationTable}
    (h : ∀ table ∈ tables, table.format.entrySize.toNat ∣ table.size.toNat) (st : LoadState σ) :
    ∃ done, relocateTables perform (2 ^ 64) tables st = some done ∧
      Went st (tables.flatMap RelocationTable.entries) done := by
  induction tables generalizing st with
  | nil => exact ⟨_, rfl, Went.nil st⟩
  | cons table rest ih =>
      have hsize := Nat.div_mul_cancel (h table List.mem_cons_self)
      have hk : table.size.toNat / table.format.entrySize.toNat < 2 ^ 64 :=
        Nat.lt_of_le_of_lt (Nat.div_le_self _ _) table.size.toNat_lt
      obtain ⟨done, hdone, hwent⟩ := relocateTable_went perform table hk 0 hsize.symm st
      rw [entriesFrom_zero] at hwent
      have hzero : UInt64.ofNat 0 = 0 := rfl
      rw [hzero] at hdone
      rw [relocateTables, hdone, List.flatMap_cons]
      dsimp only
      split
      next hres => exact ⟨done, rfl, hwent.stop hres _⟩
      next hres =>
        obtain ⟨read, hread, _, hall⟩ := hwent
        rw [hall (not_not.mp hres)] at hread
        obtain ⟨done', hdone', hwent'⟩ := ih (fun t ht => h t (List.mem_cons_of_mem _ ht)) done.2
        exact ⟨done', hdone', hwent'.append hread⟩

end Whole

/-! ## Tables that hold nothing

All the entries are relocations that do nothing, and so the loops end only where they have counted
down to zero. -/

section Zeros

theorem relocate_zeros (image : Image) (format : RelocationFormat) (entry : UInt64)
    {st : LoadState Unit} (h : st.ram = zeros) :
    st.relocate (image.performRelocation64 none) format entry =
      (.success, ⟨zeros, (), st.events ++ [.relocation entry .success]⟩) := by
  unfold LoadState.relocate
  rw [h]
  rfl

theorem relocateTable_zeros (image : Image) {table : RelocationTable} {rounds : ℕ}
    {i offset : UInt64} {st : LoadState Unit} {done : ElfLoadResult × LoadState Unit}
    (hram : st.ram = zeros)
    (h : relocateTable (image.performRelocation64 none) table rounds i offset st = some done) :
    done.1 = .success ∧ done.2.ram = zeros ∧ ∃ read : List UInt64,
      entriesRead done.2.events = entriesRead st.events ++ read ∧
      UInt64.ofNat read.length * table.format.entrySize = offset := by
  induction rounds generalizing i offset st with
  | zero => exact nomatch h
  | succ rounds ih =>
      rw [relocateTable, relocate_zeros image _ _ hram] at h
      dsimp only at h
      split at h
      next =>
        rw [if_neg (not_not.mpr rfl)] at h
        obtain ⟨hres, hzeros, read, hread, hlength⟩ := ih rfl h
        refine ⟨hres, hzeros, (table.start + i * table.format.entrySize) :: read, ?_, ?_⟩
        · rw [hread, entriesRead_append, List.append_assoc]
          rfl
        · rw [List.length_cons, UInt64.ofNat_add]
          grind
      next hzero =>
        obtain rfl := Option.some.inj h
        refine ⟨rfl, hram, [], (List.append_nil _).symm, ?_⟩
        have hle : offset ≤ 0 := UInt64.not_lt.mp hzero
        rw [UInt64.le_zero_iff.mp hle, List.length_nil]
        exact UInt64.zero_mul

/-- What is read is at least what was declared, and if it is no more then the table holds whole
entries. -/
theorem declared_le_read {table : RelocationTable} {n : ℕ}
    (h : UInt64.ofNat n * table.format.entrySize = table.size) :
    table.entries.length ≤ n ∧
      (n ≤ table.entries.length → table.format.entrySize.toNat ∣ table.size.toNat) := by
  have hpos := entrySize_pos table.format
  have hsize : table.size.toNat ≤ n * table.format.entrySize.toNat := by
    rw [← h, UInt64.toNat_mul]
    refine Nat.le_trans (Nat.mod_le _ _) (Nat.mul_le_mul_right _ ?_)
    rw [UInt64.toNat_ofNat']
    exact Nat.mod_le _ _
  have hlength : table.entries.length = table.size.toNat / table.format.entrySize.toNat := by
    unfold RelocationTable.entries
    rw [List.length_map, List.length_range]
  rw [hlength]
  constructor
  · exact Nat.div_le_of_le_mul (Nat.mul_comm _ _ ▸ hsize)
  · intro hn
    refine ⟨n, Nat.le_antisymm (Nat.mul_comm _ _ ▸ hsize) ?_⟩
    exact Nat.le_trans (Nat.mul_le_mul_left _ hn) (Nat.mul_div_le _ _)

theorem relocateTables_zeros (image : Image) {rounds : ℕ} {tables : List RelocationTable}
    {st : LoadState Unit} {done : ElfLoadResult × LoadState Unit} (hram : st.ram = zeros)
    (h : relocateTables (image.performRelocation64 none) rounds tables st = some done) :
    done.1 = .success ∧ ∃ read : List UInt64,
      entriesRead done.2.events = entriesRead st.events ++ read ∧
      (tables.flatMap RelocationTable.entries).length ≤ read.length ∧
      (read.length ≤ (tables.flatMap RelocationTable.entries).length →
        ∀ table ∈ tables, table.format.entrySize.toNat ∣ table.size.toNat) := by
  induction tables generalizing st with
  | nil =>
      obtain rfl := Option.some.inj h
      exact ⟨rfl, [], (List.append_nil _).symm, Nat.le_refl _, fun _ => nofun⟩
  | cons table rest ih =>
      rw [relocateTables] at h
      split at h
      next => cases h
      next first hfirst =>
        obtain ⟨hres, hzeros, read, hread, hlength⟩ := relocateTable_zeros image hram hfirst
        obtain ⟨hmin, hwhole⟩ := declared_le_read hlength
        rw [if_neg (not_not.mpr hres)] at h
        obtain ⟨hres', read', hread', hmin', hwhole'⟩ := ih hzeros h
        refine ⟨hres', read ++ read', ?_, ?_, ?_⟩
        · rw [hread', hread, List.append_assoc]
        · rw [List.flatMap_cons, List.length_append, List.length_append]
          exact Nat.add_le_add hmin hmin'
        · intro hle table' htable'
          rw [List.flatMap_cons, List.length_append, List.length_append] at hle
          rcases List.mem_cons.mp htable' with rfl | hrest
          · exact hwhole (by omega)
          · exact hwhole' (by omega) table' hrest

theorem mapSegments_agreeing (image : Image) (rest j : ℕ) (st : LoadState Unit) :
    ∃ st', image.mapSegments agreeing rest j st = (true, j + rest, st') ∧ st'.ram = st.ram ∧
      entriesRead st'.events = entriesRead st.events := by
  induction rest generalizing j st with
  | zero => exact ⟨st, rfl, rfl, rfl⟩
  | succ rest ih =>
      rw [Image.mapSegments, Nat.add_comm rest 1, ← Nat.add_assoc]
      split
      next => exact ih (j + 1) st
      next =>
        obtain ⟨st', hmapped, hram, hevents⟩ :=
          ih (j + 1) (image.segmap agreeing (image.phdr j) st).2
        refine ⟨st', hmapped, hram, hevents.trans ?_⟩
        exact (entriesRead_append _ _).trans (List.append_nil _)

end Zeros

/-! ## The loops -/

/-- The tables hold whole entries. -/
def Image.WholeEntries (image : Image) : Prop :=
  ∀ table ∈ image.relocationTables, table.format.entrySize.toNat ∣ table.size.toNat

theorem wholeEntries_of_processes {image : Image} (hloadable : image.elf.loadable = true)
    (h : ProcessesTables image) : image.WholeEntries := by
  obtain ⟨rounds, result, st, hrun, hpre, hall⟩ := h agreeing none zeros ()
  unfold Image.loadAndValidate64 at hrun
  rw [hloadable, if_neg (by decide)] at hrun
  obtain ⟨st', hmapped, hram, hevents⟩ := mapSegments_agreeing image
    (image.elf.programHeaderTableEntryCount image.mem).toNat 0 ⟨zeros, (), []⟩
  dsimp only at hrun
  rw [hmapped] at hrun
  dsimp only at hrun
  rw [if_neg (by decide)] at hrun
  split at hrun
  next => exact nomatch hrun
  next done hdone =>
    obtain ⟨hres, read, hread, _, hwhole⟩ := relocateTables_zeros image hram hdone
    rw [if_neg (not_not.mpr hres)] at hrun
    cases hrun
    have hdeclared := hall rfl
    rw [hread, hevents] at hdeclared
    exact hwhole (Nat.le_of_eq (congrArg List.length hdeclared))

/-- The loops over the tables of an image process exactly the declared entries, whatever the memory
holds, if and only if the tables hold whole entries. -/
theorem processesTables_iff {image : Image} (hloadable : image.elf.loadable = true) :
    ProcessesTables image ↔ image.WholeEntries := by
  constructor
  · exact wholeEntries_of_processes hloadable
  · intro hwhole σ loader symres ram lddata
    refine ⟨2 ^ 64, ?_⟩
    unfold Image.loadAndValidate64
    rw [hloadable, if_neg (by decide)]
    rcases mapSegments_cases loader image
        (image.elf.programHeaderTableEntryCount image.mem).toNat 0 ⟨ram, lddata, []⟩ rfl
      with ⟨st', hmapped, hevents⟩ | ⟨i, st', hmapped, _, _, hevents⟩
    · obtain ⟨done, hdone, read, hread, hpre, hall⟩ :=
        relocateTables_went (image.performRelocation64 symres) hwhole st'
      rw [hevents, entriesRead_segmap, List.nil_append] at hread
      dsimp only
      rw [hmapped]
      dsimp only
      rw [if_neg (by decide), hdone]
      dsimp only
      split
      next hres =>
        refine ⟨_, _, rfl, ?_, fun h => absurd h hres⟩
        rw [entriesRead_rollback, hread]
        exact hpre
      next hres =>
        refine ⟨_, _, rfl, hread ▸ hpre, fun _ => ?_⟩
        rw [hread]
        exact hall (not_not.mp hres)
    · dsimp only
      rw [hmapped]
      refine ⟨_, _, rfl, ?_, nofun⟩
      rw [entriesRead_rollback, hevents, entriesRead_append, entriesRead_segmap]
      exact List.nil_prefix

theorem processesTables_iff_two :
    (Elf.new 4096 320).validateParseElf64 (withRelocations 32) none () =
      some (.ok (withRelocationsElf 32)) ∧
    (ProcessesTables { mem := withRelocations 32, elf := withRelocationsElf 32 } ↔
      Image.WholeEntries { mem := withRelocations 32, elf := withRelocationsElf 32 }) := by
  have haccepted : (Elf.new 4096 320).validateParseElf64 (withRelocations 32) none () =
      some (.ok (withRelocationsElf 32)) := by decide +kernel
  exact ⟨haccepted, processesTables_iff rfl⟩

/-- A table of one entry and a half is accepted. -/
theorem not_processesTables : ¬ ∀ (mem : Memory) (addr size : UInt64) (elf : Elf),
    (Elf.new addr size).validateParseElf64 mem none () = some (.ok elf) →
    ProcessesTables { mem := mem, elf := elf } := by
  intro h
  have haccepted : (Elf.new 4096 320).validateParseElf64 (withRelocations 24) none () =
      some (.ok (withRelocationsElf 24)) := by decide +kernel
  have hwhole := wholeEntries_of_processes rfl (h _ _ _ _ haccepted)
  exact absurd (hwhole ⟨0x400800, 24, .rel⟩ List.mem_cons_self) (by decide)

end Beelzebub.Execution
