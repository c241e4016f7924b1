import Beelzebub.Execution.ElfBounds

/-!
# Relocations

A relocation is performed in the memory of the process.  The image, with its headers, is kept apart
from it: the segments that are written to are copies.  A relocation stores at most once, into the
range that was checked.
-/

namespace Beelzebub.Execution

/-! ## The code -/

/-- An object with the image that it was parsed from, and with `NewLocation`. -/
structure Image where
  mem : Memory
  elf : Elf
  newLocation : UInt64 := 0

/-- The values of `ElfValidationResult` for relocating and for loading. -/
inductive ElfLoadResult where
  | success
  | unloadable
  | unrelocatable
  | loadFailure
  | unknownRelocationType
  | unsupportedRelocationType
  | relocationOutOfLoad
  | relocationInPartialLoad
  | relocationUnchangeable
  deriving DecidableEq

/-- `ElfFileType::Dynamic`. -/
def fileTypeDynamic : UInt16 := 3

namespace Image

variable (image : Image)

/-- `H1->Type`. -/
def fileType : UInt16 := read16 image.mem (image.elf.start + 16)

def locationDifference : UInt64 :=
  if image.fileType = fileTypeDynamic then image.newLocation - image.elf.baseAddress else 0

def phdrs : List ElfProgramHeader64 := image.elf.phdrs image.mem

end Image

/-- `RELOCATE`. -/
def relocatePointer (diff pointer : UInt64) : UInt64 :=
  if pointer ≠ 0 then pointer + diff else pointer

def ElfDynamic.relocate (diff : UInt64) (dynamic : ElfDynamic) : ElfDynamic :=
  { dynamic with
    rel64 := relocatePointer diff dynamic.rel64
    rela64 := relocatePointer diff dynamic.rela64
    pltRela64 := relocatePointer diff dynamic.pltRela64
    pltGot := relocatePointer diff dynamic.pltGot
    dynsym64 := relocatePointer diff dynamic.dynsym64
    strtab := relocatePointer diff dynamic.strtab
    hash := relocatePointer diff dynamic.hash
    init := relocatePointer diff dynamic.init
    fini := relocatePointer diff dynamic.fini }

/-- `Relocate`. -/
def Image.relocate (image : Image) (newAddress : UInt64) : Except ElfLoadResult Image :=
  if !image.elf.loadable then .error .unloadable
  else if image.fileType ≠ fileTypeDynamic then .error .unrelocatable
  else
    let diff := newAddress - image.elf.baseAddress
    .ok { image with
      elf := { image.elf with
        dt64 := relocatePointer diff image.elf.dt64
        dynamic := image.elf.dynamic.relocate diff }
      newLocation := newAddress }

/-! `GetSymbol`, by index. -/

def sectionUndefined : UInt16 := 0
def sectionAbsolute : UInt16 := 0xFFF1

structure ElfSymbol64 where
  name : UInt32
  info : UInt8
  other : UInt8
  sectionIndex : UInt16
  value : UInt64
  size : UInt64

def ElfSymbol64.read (ram : Memory) (addr : UInt64) : ElfSymbol64 where
  name := read32 ram addr
  info := ram (addr + 4)
  other := ram (addr + 5)
  sectionIndex := read16 ram (addr + 6)
  value := read64 ram (addr + 8)
  size := read64 ram (addr + 16)

/-- `Elf::Symbol`. -/
structure Symbol where
  name : UInt64 := 0
  value : UInt64 := 0
  size : UInt64 := 0
  type : UInt8 := 0
  binding : UInt8 := 0
  visibility : UInt8 := 0
  isExistent : Bool := false
  isDefined : Bool := false
  deriving DecidableEq

namespace Image

variable (ram : Memory) (image : Image)

/-- `HASH->BucketCount`. -/
def bucketCount : UInt32 := read32 ram image.elf.dynamic.hash

/-- `HASH->ChainCount`. -/
def chainCount : UInt32 := read32 ram (image.elf.dynamic.hash + 4)

/-- `DYNSYM_64[index]`. -/
def dynsym (index : UInt32) : ElfSymbol64 :=
  .read ram (image.elf.dynamic.dynsym64 + index.toUInt64 * 24)

/-- The object is where it will run. -/
def isLocated : Bool := !(image.newLocation = 0 ∧ image.fileType = fileTypeDynamic)

/-- The object has the tables that symbols are looked up in. -/
def hasSymbols : Bool :=
  !(image.elf.dynamic.hash = 0 ∨ image.elf.dynamic.dynsym64 = 0 ∨ image.elf.dynamic.strtab = 0)

def getSymbol64 (index : UInt32) : Symbol :=
  if !image.elf.loadable then {}
  else if !image.isLocated then {}
  else if !image.hasSymbols then {}
  else if index ≥ image.chainCount ram then {}
  else
    let sym := image.dynsym ram index
    let isDefined := sym.sectionIndex ≠ sectionUndefined
    { name := image.elf.dynamic.strtab + sym.name.toUInt64
      value :=
        if isDefined ∧ sym.sectionIndex ≠ sectionAbsolute then
          sym.value + image.locationDifference
        else sym.value
      size := sym.size
      type := sym.info &&& 0xF
      binding := sym.info &&& 0xF0
      visibility := sym.other &&& 0x7
      isExistent := true
      isDefined := isDefined }

/-- The class of the image is promised. -/
def getSymbol (index : UInt32) : Symbol :=
  if !image.elf.loadable then {} else image.getSymbol64 ram index

end Image

/-! `ElfRelType`. -/

def rAmd64None : UInt8 := 0
def rAmd64Num64 : UInt8 := 1
def rAmd64Pc32 : UInt8 := 2
def rAmd64Got32 : UInt8 := 3
def rAmd64Plt32 : UInt8 := 4
def rAmd64Copy : UInt8 := 5
def rAmd64GlobDat : UInt8 := 6
def rAmd64JumpSlot : UInt8 := 7
def rAmd64Relative : UInt8 := 8
def rAmd64Gotpcrel : UInt8 := 9
def rAmd64Num32 : UInt8 := 10
def rAmd64Num32S : UInt8 := 11
def rAmd64Num16 : UInt8 := 12
def rAmd64Pc16 : UInt8 := 13
def rAmd64Num8 : UInt8 := 14
def rAmd64Pc8 : UInt8 := 15
def rAmd64Pc64 : UInt8 := 24
def rAmd64Gotoff64 : UInt8 := 25
def rAmd64Gotpc32 : UInt8 := 26
def rAmd64Got64 : UInt8 := 27
def rAmd64Gotpcrel64 : UInt8 := 28
def rAmd64Gotpc64 : UInt8 := 29
def rAmd64Gotplt64 : UInt8 := 30
def rAmd64Pltoff64 : UInt8 := 31
def rAmd64Size32 : UInt8 := 32
def rAmd64Size64 : UInt8 := 33
def rAmd64Gotpc32Tlsdesc : UInt8 := 34
def rAmd64TlsdescCall : UInt8 := 35
def rAmd64Tlsdesc : UInt8 := 36
def rAmd64Irelative : UInt8 := 37

/-- The first `switch` of `PerformRelocation64`, for a symbol of size `z`. -/
def relocSize (rtype : UInt8) (z : UInt64) : Option UInt64 :=
  if rtype = rAmd64Copy then some z
  else if rtype = rAmd64Tlsdesc then some 16
  else if rtype ∈ [rAmd64Num64, rAmd64GlobDat, rAmd64JumpSlot, rAmd64Relative, rAmd64Pc64,
      rAmd64Gotoff64, rAmd64Got64, rAmd64Gotpcrel64, rAmd64Gotpc64, rAmd64Gotplt64, rAmd64Pltoff64,
      rAmd64Size64, rAmd64Irelative] then some 8
  else if rtype ∈ [rAmd64Pc32, rAmd64Got32, rAmd64Plt32, rAmd64Gotpcrel, rAmd64Num32,
      rAmd64Num32S, rAmd64Gotpc32, rAmd64Size32, rAmd64Gotpc32Tlsdesc] then some 4
  else if rtype ∈ [rAmd64Num16, rAmd64Pc16] then some 2
  else if rtype ∈ [rAmd64Num8, rAmd64Pc8] then some 1
  else if rtype ∈ [rAmd64None, rAmd64TlsdescCall] then some 0
  else none

/-- The `switch` over the answer of `CheckRangeLoaded`. -/
def RangeLoadStatus.refusal : RangeLoadStatus → Option ElfLoadResult
  | .completelyAbsent => some .relocationOutOfLoad
  | .partiallyLoaded => some .relocationInPartialLoad
  | .optionsNotMet => some .relocationUnchangeable
  | .fullyLoaded => none

/-- Bytes that are stored from an address on. -/
structure Store where
  addr : UInt64
  size : UInt64
  byte : UInt64 → UInt8

namespace Store

/-- The address is stored to. -/
def Covers (store : Store) (p : UInt64) : Prop := p - store.addr < store.size

instance (store : Store) (p : UInt64) : Decidable (store.Covers p) :=
  inferInstanceAs (Decidable (_ < _))

def apply (store : Store) (ram : Memory) : Memory :=
  fun p => if store.Covers p then store.byte (p - store.addr) else ram p

/-- `*(addr.u64) = value`. -/
def number (addr value : UInt64) : Store := ⟨addr, 8, fun i => (value >>> (8 * i)).toUInt8⟩

/-- `memcpy`. -/
def copy (ram : Memory) (addr source size : UInt64) : Store :=
  ⟨addr, size, fun i => ram (source + i)⟩

end Store

/-- What became of a relocation. -/
structure Relocated (σ : Type) where
  result : ElfLoadResult
  store : Option Store
  lddata : σ

variable {σ : Type}

/-- `SymbolResolverFunc`, on data that it may change. -/
abbrev SymbolResolver (σ : Type) := UInt64 → Memory → σ → Symbol × σ

/-- Without a resolver, the symbol is that of the object. -/
def resolve (symres : Option (SymbolResolver σ)) (sym : Symbol) (ram : Memory) (lddata : σ) :
    Symbol × σ :=
  match symres with
  | none => (sym, lddata)
  | some symres => symres sym.name ram lddata

/-- The second `switch` of `PerformRelocation64`. -/
def storeFor (ram : Memory) (addr a b s z : UInt64) (rtype : UInt8) :
    ElfLoadResult × Option Store :=
  if rtype = rAmd64None then (.success, none)
  else if rtype = rAmd64Num64 then (.success, some (.number addr (s + a)))
  else if rtype = rAmd64Copy then (.success, some (.copy ram addr s z))
  else if rtype = rAmd64GlobDat ∨ rtype = rAmd64JumpSlot then (.success, some (.number addr s))
  else if rtype = rAmd64Relative then (.success, some (.number addr (b + a)))
  else (.unsupportedRelocationType, none)

/-- The check before the symbol is resolved. -/
def Image.refuses (image : Image) (offset size : UInt64) (rtype : UInt8) : Option ElfLoadResult :=
  if rtype ≠ rAmd64None then
    (image.elf.checkRangeLoaded64 image.mem offset size .writable).refusal
  else none

def Image.performRelocation64 (image : Image) (symres : Option (SymbolResolver σ))
    (offset a : UInt64) (rtype : UInt8) (symInd : UInt32) (ram : Memory) (lddata : σ) :
    Relocated σ :=
  let b := image.locationDifference
  let addr := b + offset
  let sym := image.getSymbol ram symInd
  let z := sym.size
  match relocSize rtype z with
  | none => ⟨.unknownRelocationType, none, lddata⟩
  | some size =>
      match image.refuses offset size rtype with
      | some error => ⟨error, none, lddata⟩
      | none =>
          let resolved := resolve symres sym ram lddata
          let done := storeFor ram addr a b resolved.1.value z rtype
          ⟨done.1, done.2, resolved.2⟩

/-! ## What is asked -/

def ElfProgramHeader64.IsWritable (phdr : ElfProgramHeader64) : Prop :=
  phdr.flags &&& flagWritable ≠ 0

/-- A range that is not empty lies in a writable load segment. -/
def InWritable (phdrs : List ElfProgramHeader64) (range : PointerAndSize) : Prop :=
  0 < range.size.toNat ∧ ∃ q ∈ phdrs, q.IsLoad ∧ q.IsWritable ∧ range.Inside q.range

/-- What is asked of a relocation at an offset, for a symbol of size `z`. -/
structure Confined (image : Image) (offset z : UInt64) (rtype : UInt8) (done : Relocated σ) : Prop
    where
  inside : ∀ store, done.store = some store → ∀ p, store.Covers p →
    ∃ q ∈ image.phdrs, q.IsLoad ∧ q.IsWritable ∧
      (p - image.locationDifference).toNat ∈ q.range.toSet
  failed : done.result ≠ .success → done.store = none
  refused : ∀ n, relocSize rtype z = some n → rtype ≠ rAmd64None →
    ¬ InWritable image.phdrs ⟨offset, n⟩ → done.result ≠ .success
  unknown : relocSize rtype z = none → done.result ≠ .success

/-! ## The check -/

theorem intersect_unwrapped {a b : PointerAndSize} (h : (intersectMemoryRanges a b).size ≠ 0)
    (hstart : (intersectMemoryRanges a b).start = a.start)
    (hsize : (intersectMemoryRanges a b).size = a.size) : a.endNat < 2 ^ 64 := by
  have hmin := (intersect_spec h).2
  unfold PointerAndSize.endNat at hmin ⊢
  rw [hstart, hsize] at hmin
  calc a.start.toNat + a.size.toNat
      = min (a.start + a.size).toNat (b.start + b.size).toNat := hmin
    _ ≤ (a.start + a.size).toNat := Nat.min_le_left _ _
    _ < 2 ^ 64 := UInt64.toNat_lt _

theorem checkRange_writable {range : PointerAndSize} {phdrs : List ElfProgramHeader64}
    (h : checkRange range .writable phdrs = .fullyLoaded) :
    InWritable phdrs range ∧ range.endNat < 2 ^ 64 := by
  induction phdrs with
  | nil => cases h
  | cons load rest ih =>
      have hrest (h : checkRange range .writable rest = .fullyLoaded) :
          InWritable (load :: rest) range ∧ range.endNat < 2 ^ 64 := by
        obtain ⟨⟨hpos, q, hq, hwritable⟩, hend⟩ := ih h
        exact ⟨⟨hpos, q, List.mem_cons_of_mem _ hq, hwritable⟩, hend⟩
      rw [checkRange] at h
      split at h
      next => exact hrest h
      next htype =>
        dsimp only at h
        split at h
        next => exact hrest h
        next hsize =>
          split at h
          next hwhole =>
            split at h
            next hflags =>
              have hinside := intersect_inside hsize hwhole.1 hwhole.2
              have hpos : 0 < range.size.toNat := by
                rw [hwhole.2] at hsize
                exact Nat.pos_of_ne_zero fun hzero => hsize (UInt64.toNat_inj.mp hzero)
              exact ⟨⟨hpos, load, List.mem_cons_self, not_not.mp htype, hflags, hinside⟩,
                intersect_unwrapped hsize hwhole.1 hwhole.2⟩
            next => cases h
          next => cases h

theorem refusal_eq_none {status : RangeLoadStatus} (h : status.refusal = none) :
    status = .fullyLoaded := by
  cases status with
  | fullyLoaded => rfl
  | completelyAbsent => exact nomatch h
  | partiallyLoaded => exact nomatch h
  | optionsNotMet => exact nomatch h

theorem refusal_ne_success {status : RangeLoadStatus} {error : ElfLoadResult}
    (h : status.refusal = some error) : error ≠ .success := by
  cases status with
  | fullyLoaded => exact nomatch h
  | completelyAbsent => cases h; exact nofun
  | partiallyLoaded => cases h; exact nofun
  | optionsNotMet => cases h; exact nofun

section Relocation

variable {image : Image} {offset size a b s z : UInt64} {rtype : UInt8}

theorem refuses_eq_none (h : image.refuses offset size rtype = none) (hrtype : rtype ≠ rAmd64None) :
    InWritable image.phdrs ⟨offset, size⟩ ∧ offset.toNat + size.toNat < 2 ^ 64 := by
  unfold Image.refuses at h
  rw [if_pos hrtype] at h
  exact checkRange_writable (refusal_eq_none h)

theorem refuses_ne_success {error : ElfLoadResult}
    (h : image.refuses offset size rtype = some error) : error ≠ .success := by
  unfold Image.refuses at h
  split at h
  next => exact refusal_ne_success h
  next => exact nomatch h

/-! ## The store -/

/-- Where there is a store, it takes up the range that was checked. -/
theorem storeFor_range {ram : Memory} {addr : UInt64} {store : Store}
    (hsize : relocSize rtype z = some size)
    (h : (storeFor ram addr a b s z rtype).2 = some store) :
    store.addr = addr ∧ store.size = size ∧ rtype ≠ rAmd64None := by
  unfold storeFor at h
  split at h
  next => exact nomatch h
  next hnone =>
  split at h
  next htype =>
    subst htype
    cases h
    cases hsize
    exact ⟨rfl, rfl, hnone⟩
  next =>
  split at h
  next htype =>
    subst htype
    cases h
    cases hsize
    exact ⟨rfl, rfl, hnone⟩
  next =>
  split at h
  next htype =>
    cases h
    rcases htype with rfl | rfl
    · cases hsize
      exact ⟨rfl, rfl, hnone⟩
    · cases hsize
      exact ⟨rfl, rfl, hnone⟩
  next =>
  split at h
  next htype =>
    subst htype
    cases h
    cases hsize
    exact ⟨rfl, rfl, hnone⟩
  next => exact nomatch h

theorem storeFor_failed {ram : Memory} {addr : UInt64}
    (h : (storeFor ram addr a b s z rtype).1 ≠ .success) :
    (storeFor ram addr a b s z rtype).2 = none := by
  unfold storeFor at h ⊢
  split_ifs at h ⊢
  all_goals first | rfl | exact absurd rfl h

/-- The bytes of a store, shifted by the location difference. -/
theorem shifted_mem {diff p : UInt64} (h : p - (diff + offset) < size)
    (hfits : offset.toNat + size.toNat < 2 ^ 64) :
    (p - diff).toNat ∈ PointerAndSize.toSet ⟨offset, size⟩ := by
  have hk : (p - (diff + offset)).toNat < size.toNat := UInt64.lt_iff_toNat_lt.mp h
  have hsum : p - diff = offset + (p - (diff + offset)) := by grind
  have hnat : (p - diff).toNat = offset.toNat + (p - (diff + offset)).toNat := by
    rw [hsum, toNat_add_of_lt (by omega)]
  rw [hnat]
  exact ⟨Nat.le_add_right _ _, Nat.add_lt_add_left hk _⟩

end Relocation

theorem PointerAndSize.Inside.subset {r s : PointerAndSize} (h : r.Inside s) :
    r.toSet ⊆ s.toSet := by
  exact Set.Ico_subset_Ico h.1 h.2

/-! ## The relocation -/

/-- What a relocation does: it is refused, or it stores what its type asks for. -/
theorem performRelocation64_cases (image : Image) (symres : Option (SymbolResolver σ))
    (offset a : UInt64) (rtype : UInt8) (symInd : UInt32) (ram : Memory) (lddata : σ) :
    let z := (image.getSymbol ram symInd).size
    let done := image.performRelocation64 symres offset a rtype symInd ram lddata
    (relocSize rtype z = none ∧ done.result ≠ .success ∧ done.store = none) ∨
    ∃ size, relocSize rtype z = some size ∧
      ((done.result ≠ .success ∧ done.store = none) ∨
      (image.refuses offset size rtype = none ∧ ∃ s,
        (done.result, done.store) =
          storeFor ram (image.locationDifference + offset) a image.locationDifference s z
            rtype)) := by
  intro z done
  have hdone : done = image.performRelocation64 symres offset a rtype symInd ram lddata := rfl
  unfold Image.performRelocation64 at hdone
  dsimp only at hdone
  cases hsize : relocSize rtype z with
  | none =>
      rw [hsize] at hdone
      rw [hdone]
      exact .inl ⟨rfl, nofun, rfl⟩
  | some size =>
      rw [hsize] at hdone
      dsimp only at hdone
      refine .inr ⟨size, rfl, ?_⟩
      cases hrefuses : image.refuses offset size rtype with
      | some error =>
          rw [hrefuses] at hdone
          rw [hdone]
          exact .inl ⟨refuses_ne_success hrefuses, rfl⟩
      | none =>
          rw [hrefuses] at hdone
          rw [hdone]
          exact .inr ⟨rfl, _, rfl⟩

/-- A range is taken to be loaded and writable only if it lies in a writable load segment, and a
relocation stores only there. -/
theorem performRelocation64_confined (image : Image) :
    (∀ start size, image.elf.checkRangeLoaded64 image.mem start size .writable = .fullyLoaded →
      InWritable image.phdrs ⟨start, size⟩) ∧
    ∀ (symres : Option (SymbolResolver σ)) (offset a : UInt64) (rtype : UInt8) (symInd : UInt32)
      (ram : Memory) (lddata : σ),
      Confined image offset (image.getSymbol ram symInd).size rtype
        (image.performRelocation64 symres offset a rtype symInd ram lddata) := by
  constructor
  · intro start size h
    exact (checkRange_writable h).1
  · intro symres offset a rtype symInd ram lddata
    have hcases := performRelocation64_cases image symres offset a rtype symInd ram lddata
    dsimp only at hcases
    rcases hcases with ⟨hsize, hfailed, hstore⟩ | ⟨size, hsize, ⟨hfailed, hstore⟩ | ⟨hnone, s, h⟩⟩
    · constructor
      case inside =>
        intro store hsome
        exact nomatch hstore.symm.trans hsome
      case failed => exact fun _ => hstore
      case refused => exact fun _ _ _ _ => hfailed
      case unknown => exact fun _ => hfailed
    · constructor
      case inside =>
        intro store hsome
        exact nomatch hstore.symm.trans hsome
      case failed => exact fun _ => hstore
      case refused => exact fun _ _ _ _ => hfailed
      case unknown => exact fun _ => hfailed
    · obtain ⟨hresult, hstore⟩ := Prod.ext_iff.mp h
      dsimp only at hresult hstore
      constructor
      case inside =>
        intro store hsome p hp
        obtain ⟨haddr, hrange, hrtype⟩ := storeFor_range hsize (hstore.symm.trans hsome)
        obtain ⟨⟨_, q, hq, hload, hwritable, hinside⟩, hfits⟩ := refuses_eq_none hnone hrtype
        refine ⟨q, hq, hload, hwritable, hinside.subset (shifted_mem ?_ hfits)⟩
        rw [← haddr, ← hrange]
        exact hp
      case failed =>
        intro hfailed
        rw [hresult] at hfailed
        exact hstore.trans (storeFor_failed hfailed)
      case refused =>
        intro n hn hrtype hoff
        cases hsize.symm.trans hn
        exact absurd (refuses_eq_none hnone hrtype).1 hoff
      case unknown =>
        intro hunknown
        exact nomatch hsize.symm.trans hunknown

end Beelzebub.Execution
