import Mathlib.Algebra.Ring.Nat
import Mathlib.Data.Nat.Notation
import Mathlib.Tactic.Common

/-!
# Handles as words

A handle packs a type, an index and a flag in one word.  A `HandlePointer` keeps its value in the
index of a handle: the low bits are a pointer without its lowest bits, which are known to be zero,
and the high bits are data.
-/

namespace Beelzebub.Handles

/-! ## The code -/

inductive HandleType where
  | invalid
  | result
  | page
  | thread
  | process
  | job
  | kernelModule
  | channel
  | initRdFile
  | initRdDirectory
deriving DecidableEq

def HandleType.code : HandleType → BitVec 8
  | invalid => 0x00
  | result => 0x01
  | page => 0x02
  | thread => 0x10
  | process => 0x11
  | job => 0x12
  | kernelModule => 0x1F
  | channel => 0x20
  | initRdFile => 0x30
  | initRdDirectory => 0x31

def indexBits : BitVec 64 := 0x7FFFFFFFFFFFFF00
def indexOffset : ℕ := 8
def globalFatalBit : BitVec 64 := 0x8000000000000000

structure Handle where
  value : BitVec 64
deriving DecidableEq

/-- `GET_EXTENDED_POINTER`. -/
def getExtendedPointer (ptr : BitVec 64) : BitVec 64 :=
  if ptr &&& 0x0000800000000000 ≠ 0 then ptr ||| 0xFFFF000000000000 else ptr

namespace Handle

/-- The constructor of handles of any type. -/
def make (type : HandleType) (index : BitVec 64) (glob : Bool) : Handle where
  value := type.code.setWidth 64 ||| (index <<< indexOffset &&& indexBits) |||
    if glob then globalFatalBit else 0

/-- `Bytes[i]`. -/
def bytes (h : Handle) (i : ℕ) : BitVec 8 := h.value.extractLsb' (8 * i) 8

def isType (h : Handle) (type : HandleType) : Bool := h.bytes 0 == type.code

def getIndex (h : Handle) (type : HandleType) : BitVec 64 :=
  if h.isType type then (h.value &&& indexBits) >>> indexOffset else ~~~0

def getPage (h : Handle) : BitVec 64 :=
  if h.isType .page then getExtendedPointer ((h.value &&& indexBits) >>> indexOffset) else 0

end Handle

/-- The type of the handles and the lowest bits of the pointers are those of the template. -/
structure HandlePointer (htype : HandleType) (offset : ℕ) where
  value : BitVec 64

namespace HandlePointer

def pointerMask : BitVec 64 := 0x0000FFFFFFFFFFFF
def dataMask (offset : ℕ) : BitVec 64 := (1 <<< (7 + offset) - 1) &&& 0x007FFFFFFFFFFFFF
def dataOffset (offset : ℕ) : ℕ := 48 - offset

variable {htype : HandleType} {offset : ℕ}

def ofHandle (h : Handle) : HandlePointer htype offset where
  value := h.getIndex htype

def make (ptr data : BitVec 64) : HandlePointer htype offset where
  value := (ptr &&& pointerMask) >>> offset |||
    (data &&& dataMask offset) <<< dataOffset offset

def toHandle (p : HandlePointer htype offset) (glob : Bool) : Handle := .make htype p.value glob

def setPointer (ptr : BitVec 64) (p : HandlePointer htype offset) : HandlePointer htype offset where
  value := p.value &&& dataMask offset <<< dataOffset offset |||
    (ptr &&& pointerMask) >>> offset

def setData (data : BitVec 64) (p : HandlePointer htype offset) : HandlePointer htype offset where
  value := p.value &&& pointerMask >>> offset |||
    (data &&& dataMask offset) <<< dataOffset offset

def getPointer (p : HandlePointer htype offset) : BitVec 64 :=
  getExtendedPointer ((p.value &&& pointerMask >>> offset) <<< offset)

def getData (p : HandlePointer htype offset) : BitVec 64 :=
  p.value >>> dataOffset offset &&& dataMask offset

end HandlePointer

/-! ## Bits -/

/-- The upper bits of an address repeat the highest of the lower 48. -/
def Canonical (ptr : BitVec 64) : Prop := (ptr.setWidth 48).signExtend 64 = ptr

variable {htype : HandleType} {offset i : ℕ} {ptr data : BitVec 64}

theorem Canonical.getLsbD (h : Canonical ptr) (hi : 48 ≤ i) (hlt : i < 64) :
    ptr.getLsbD i = ptr.getLsbD 47 := by
  have hbit := congrArg (BitVec.getLsbD · i) h
  rw [BitVec.getLsbD_signExtend, decide_eq_true hlt, if_neg (Nat.not_lt.mpr hi)] at hbit
  rw [← hbit]
  simp [BitVec.msb_eq_getLsbD_last]

/-- A bit of a word is known when it is one of the 64. -/
theorem getLsbD_word {word : BitVec 64} {lo hi : ℕ} (hle : hi ≤ 64)
    (h : ∀ i < 64, word.getLsbD i = decide (lo ≤ i ∧ i < hi)) (i : ℕ) :
    word.getLsbD i = decide (lo ≤ i ∧ i < hi) := by
  by_cases hi : i < 64
  · exact h i hi
  · rw [BitVec.getLsbD_of_ge word i (Nat.le_of_not_lt hi), eq_comm, decide_eq_false_iff_not]
    exact fun hbound => hi (Nat.lt_of_lt_of_le hbound.2 hle)

@[simp] theorem getLsbD_indexBits : indexBits.getLsbD i = decide (8 ≤ i ∧ i < 63) :=
  getLsbD_word (by decide) (by decide) i

@[simp] theorem getLsbD_globalFatalBit : globalFatalBit.getLsbD i = decide (63 ≤ i ∧ i < 64) :=
  getLsbD_word (by decide) (by decide) i

@[simp] theorem getLsbD_pointerMask :
    HandlePointer.pointerMask.getLsbD i = decide (0 ≤ i ∧ i < 48) :=
  getLsbD_word (by decide) (by decide) i

/-- No bit of the mask for data is cut off. -/
theorem dataMask_eq (h : offset < 48) :
    HandlePointer.dataMask offset = BitVec.ofNat 64 (2 ^ (7 + offset) - 1) := by
  have hlt : 2 ^ (7 + offset) ≤ 2 ^ 54 := Nat.pow_le_pow_right (by decide) (by omega)
  have hpos : 0 < 2 ^ (7 + offset) := Nat.two_pow_pos _
  have hone : (1 <<< (7 + offset) : BitVec 64) = BitVec.ofNat 64 (2 ^ (7 + offset)) := by
    refine BitVec.eq_of_toNat_eq ?_
    simp [Nat.shiftLeft_eq]
  refine BitVec.eq_of_toNat_eq ?_
  have hmask : (0x007FFFFFFFFFFFFF : BitVec 64).toNat = 2 ^ 55 - 1 := rfl
  rw [HandlePointer.dataMask, hone, BitVec.toNat_and, hmask, Nat.and_two_pow_sub_one_eq_mod,
    BitVec.toNat_sub, BitVec.toNat_ofNat, BitVec.toNat_ofNat]
  simp
  omega

theorem getLsbD_getExtendedPointer :
    (getExtendedPointer ptr).getLsbD i =
      (ptr.getLsbD i || (decide (48 ≤ i ∧ i < 64) && ptr.getLsbD 47)) := by
  have hsign : (0x0000800000000000 : BitVec 64) = BitVec.twoPow 64 47 := rfl
  have hones : (0xFFFF000000000000 : BitVec 64).getLsbD i = decide (48 ≤ i ∧ i < 64) :=
    getLsbD_word (by decide) (by decide) i
  unfold getExtendedPointer
  rw [hsign, BitVec.and_twoPow]
  cases hbit : ptr.getLsbD 47 with
  | false => simp
  | true =>
      rw [if_pos rfl, if_pos (by decide), BitVec.getLsbD_or, hones, Bool.and_true]

/-! ## Handles -/

/-- A handle made for a type holds the lowest 55 bits of the index for that type. -/
theorem Handle.isType_make (type : HandleType) (index : BitVec 64) (glob : Bool) :
    (Handle.make type index glob).isType type = true := by
  have h : (Handle.make type index glob).bytes 0 = type.code := by
    refine BitVec.eq_of_getLsbD_eq fun i hi => ?_
    cases glob with
    | false =>
        simp [bytes, make, indexOffset]
        grind
    | true =>
        simp [bytes, make, indexOffset]
        grind
  exact beq_iff_eq.mpr h

theorem Handle.index_make (type : HandleType) (index : BitVec 64) (glob : Bool) :
    (((Handle.make type index glob).value &&& indexBits) >>> indexOffset).getLsbD i =
      (decide (i < 55) && index.getLsbD i) := by
  have htype : (type.code.setWidth 64).getLsbD (8 + i) = false := by
    simp
  cases glob with
  | false =>
      simp [make, indexOffset]
      grind
  | true =>
      simp [make, indexOffset]
      grind

/-! ## Fields -/

namespace HandlePointer

variable {p : HandlePointer htype offset}

theorem getLsbD_dataMask (h : offset < 48) :
    (dataMask offset).getLsbD i = decide (i < 7 + offset) := by
  rw [dataMask_eq h, BitVec.getLsbD_ofNat, Nat.testBit_two_pow_sub_one]
  simp
  omega

theorem getLsbD_setPointer (h : offset < 48) :
    (p.setPointer ptr).value.getLsbD i =
      if i < 48 - offset then ptr.getLsbD (offset + i)
      else decide (i < 55) && p.value.getLsbD i := by
  simp [setPointer, getLsbD_dataMask h, dataOffset]
  grind

theorem getLsbD_setData (h : offset < 48) :
    (p.setData data).value.getLsbD i =
      if i < 48 - offset then p.value.getLsbD i
      else decide (i < 55) && data.getLsbD (i - (48 - offset)) := by
  simp [setData, getLsbD_dataMask h, dataOffset]
  grind

theorem getLsbD_make (h : offset < 48) :
    (make ptr data : HandlePointer htype offset).value.getLsbD i =
      if i < 48 - offset then ptr.getLsbD (offset + i)
      else decide (i < 55) && data.getLsbD (i - (48 - offset)) := by
  simp [make, getLsbD_dataMask h, dataOffset]
  grind

theorem getLsbD_getData (h : offset < 48) :
    p.getData.getLsbD i = (decide (i < 7 + offset) && p.value.getLsbD (48 - offset + i)) := by
  simp [getData, getLsbD_dataMask h, dataOffset]
  grind

/-- The pointer is read from the bits below the data. -/
theorem getPointer_congr {q : HandlePointer htype offset}
    (h : ∀ i < 48 - offset, p.value.getLsbD i = q.value.getLsbD i) :
    p.getPointer = q.getPointer := by
  have hmask : p.value &&& pointerMask >>> offset = q.value &&& pointerMask >>> offset := by
    refine BitVec.eq_of_getLsbD_eq fun i hi => ?_
    have hi := h i
    simp
    grind
  rw [getPointer, hmask, getPointer]

theorem getData_congr {q : HandlePointer htype offset} (ho : offset < 48)
    (h : ∀ i, 48 - offset ≤ i → i < 55 → p.value.getLsbD i = q.value.getLsbD i) :
    p.getData = q.getData := by
  refine BitVec.eq_of_getLsbD_eq fun i hi => ?_
  have hi := h (48 - offset + i)
  rw [getLsbD_getData ho, getLsbD_getData ho]
  grind

/-- What a handle pointer with the offset can hold. -/
structure IsPointer (offset : ℕ) (ptr : BitVec 64) : Prop where
  canonical : Canonical ptr
  low : ∀ i < offset, ptr.getLsbD i = false

theorem getPointer_eq (hptr : IsPointer offset ptr) (ho : offset < 48)
    (h : ∀ i < 48 - offset, p.value.getLsbD i = ptr.getLsbD (offset + i)) :
    p.getPointer = ptr := by
  refine BitVec.eq_of_getLsbD_eq fun i hi => ?_
  have hraw (i : ℕ) : ((p.value &&& pointerMask >>> offset) <<< offset).getLsbD i =
      (decide (i < 48) && ptr.getLsbD i) := by
    have hlow := hptr.low i
    have hbit := h (i - offset)
    simp
    grind
  rw [getPointer, getLsbD_getExtendedPointer, hraw, hraw]
  by_cases hlt : i < 48
  · have hle : ¬48 ≤ i := Nat.not_le.mpr hlt
    simp [hlt, hle]
  · have hsign := hptr.canonical.getLsbD (Nat.le_of_not_lt hlt) hi
    rw [hsign, decide_eq_false hlt, decide_eq_true ⟨Nat.le_of_not_lt hlt, hi⟩]
    simp

theorem getData_eq (hdata : data.toNat < 2 ^ (7 + offset)) (ho : offset < 48)
    (h : ∀ i < 7 + offset, p.value.getLsbD (48 - offset + i) = data.getLsbD i) :
    p.getData = data := by
  refine BitVec.eq_of_getLsbD_eq fun i hi => ?_
  rw [getLsbD_getData ho]
  by_cases hlt : i < 7 + offset
  · rw [decide_eq_true hlt, Bool.true_and, h i hlt]
  · rw [decide_eq_false hlt, Bool.false_and]
    refine (Nat.testBit_lt_two_pow (Nat.lt_of_lt_of_le hdata ?_)).symm
    exact Nat.pow_le_pow_right (by decide) (Nat.le_of_not_lt hlt)

/-- Nothing that a handle pointer holds is lost in a handle. -/
theorem getLsbD_ofHandle_toHandle (p : HandlePointer htype offset) (glob : Bool) (i : ℕ) :
    (ofHandle (p.toHandle glob) : HandlePointer htype offset).value.getLsbD i =
      (decide (i < 55) && p.value.getLsbD i) := by
  rw [ofHandle, toHandle, Handle.getIndex, if_pos (Handle.isType_make htype p.value glob)]
  exact Handle.index_make htype p.value glob

/-- The pointer and the data come back from the handle. -/
theorem ofHandle_toHandle_make (hptr : IsPointer offset ptr) (hdata : data.toNat < 2 ^ (7 + offset))
    (ho : offset < 48) (glob : Bool) :
    let p : HandlePointer htype offset :=
      ofHandle ((make ptr data : HandlePointer htype offset).toHandle glob)
    p.getPointer = ptr ∧ p.getData = data := by
  constructor
  · refine getPointer_eq hptr ho fun i hi => ?_
    have hlt : i < 55 := by omega
    rw [getLsbD_ofHandle_toHandle, getLsbD_make ho, if_pos hi, decide_eq_true hlt, Bool.true_and]
  · refine getData_eq hdata ho fun i hi => ?_
    have hlt : 48 - offset + i < 55 := by omega
    rw [getLsbD_ofHandle_toHandle, getLsbD_make ho, if_neg (Nat.not_lt.mpr (Nat.le_add_right _ _)),
      decide_eq_true hlt, Bool.true_and, Bool.true_and, Nat.add_sub_cancel_left]

/-! ## Updates -/

/-- Calls of `SetPointer` and `SetData`. -/
inductive Update where
  | setPointer (ptr : BitVec 64)
  | setData (data : BitVec 64)

def Update.isData : Update → Bool
  | setPointer _ => false
  | setData _ => true

def apply (p : HandlePointer htype offset) : Update → HandlePointer htype offset
  | .setPointer ptr => p.setPointer ptr
  | .setData data => p.setData data

def run (p : HandlePointer htype offset) (us : List Update) : HandlePointer htype offset :=
  us.foldl apply p

/-- What a handle pointer stands for. -/
structure Contents where
  pointer : BitVec 64
  data : BitVec 64

def Contents.apply (c : Contents) : Update → Contents
  | .setPointer ptr => { c with pointer := ptr }
  | .setData data => { c with data := data }

def contents (p : HandlePointer htype offset) : Contents := ⟨p.getPointer, p.getData⟩

/-- The values that a handle pointer can hold. -/
def Update.Fits (offset : ℕ) : Update → Prop
  | .setPointer ptr => IsPointer offset ptr
  | .setData data => data.toNat < 2 ^ (7 + offset)

theorem getData_setPointer (ho : offset < 48) : (p.setPointer ptr).getData = p.getData := by
  refine getData_congr ho fun i hi hlt => ?_
  rw [getLsbD_setPointer ho, if_neg (Nat.not_lt.mpr hi), decide_eq_true hlt, Bool.true_and]

theorem getPointer_setData (ho : offset < 48) : (p.setData data).getPointer = p.getPointer :=
  getPointer_congr fun i hi => by rw [getLsbD_setData ho, if_pos hi]

/-- What is set does not depend on what was there. -/
theorem getPointer_setPointer (q : HandlePointer htype offset) (ho : offset < 48) :
    (p.setPointer ptr).getPointer = (q.setPointer ptr).getPointer :=
  getPointer_congr fun i hi => by
    rw [getLsbD_setPointer ho, getLsbD_setPointer ho, if_pos hi, if_pos hi]

theorem getData_setData (q : HandlePointer htype offset) (ho : offset < 48) :
    (p.setData data).getData = (q.setData data).getData :=
  getData_congr ho fun i hi _ => by
    rw [getLsbD_setData ho, getLsbD_setData ho, if_neg (Nat.not_lt.mpr hi),
      if_neg (Nat.not_lt.mpr hi)]

theorem contents_apply {u : Update} (hu : u.Fits offset) (ho : offset < 48) :
    (p.apply u).contents = p.contents.apply u := by
  cases u with
  | setPointer ptr =>
      have hset : (p.setPointer ptr).getPointer = ptr :=
        getPointer_eq hu ho fun i hi => by rw [getLsbD_setPointer ho, if_pos hi]
      exact congrArg₂ Contents.mk hset (getData_setPointer ho)
  | setData data =>
      have hset : (p.setData data).getData = data :=
        getData_eq hu ho fun i hi => by
          have hlt : 48 - offset + i < 55 := by omega
          rw [getLsbD_setData ho, if_neg (Nat.not_lt.mpr (Nat.le_add_right _ _)),
            decide_eq_true hlt, Bool.true_and, Nat.add_sub_cancel_left]
      exact congrArg₂ Contents.mk (getPointer_setData ho) hset

theorem getData_run (us : List Update) (p q : HandlePointer htype offset) (ho : offset < 48)
    (h : p.getData = q.getData) :
    (p.run us).getData = (q.run (us.filter (·.isData))).getData := by
  induction us generalizing p q with
  | nil => exact h
  | cons u us ih =>
      cases u with
      | setPointer ptr => exact ih _ _ ((getData_setPointer ho).trans h)
      | setData data => exact ih _ _ (getData_setData q ho)

theorem getPointer_run (us : List Update) (p q : HandlePointer htype offset) (ho : offset < 48)
    (h : p.getPointer = q.getPointer) :
    (p.run us).getPointer = (q.run (us.filter fun u => !u.isData)).getPointer := by
  induction us generalizing p q with
  | nil => exact h
  | cons u us ih =>
      cases u with
      | setPointer ptr => exact ih _ _ (getPointer_setPointer q ho)
      | setData data => exact ih _ _ ((getPointer_setData ho).trans h)

theorem contents_run (us : List Update) (p : HandlePointer htype offset) (ho : offset < 48)
    (hfits : ∀ u ∈ us, u.Fits offset) :
    (p.run us).contents = us.foldl Contents.apply p.contents := by
  induction us generalizing p with
  | nil => rfl
  | cons u us ih =>
      have hstep := contents_apply (p := p) (hfits u List.mem_cons_self) ho
      refine (ih (p.apply u) fun v hv => hfits v (List.mem_cons_of_mem u hv)).trans ?_
      rw [hstep]
      rfl

end HandlePointer

/-- A page handle gives the address back. -/
theorem Handle.getPage_make (hptr : Canonical ptr) (glob : Bool) :
    (Handle.make .page ptr glob).getPage = ptr := by
  rw [getPage, if_pos (isType_make .page ptr glob)]
  refine BitVec.eq_of_getLsbD_eq fun i hi => ?_
  rw [getLsbD_getExtendedPointer, index_make, index_make]
  by_cases hlt : i < 48
  · have hindex : i < 55 := Nat.lt_of_lt_of_le hlt (by decide)
    have hle : ¬48 ≤ i := Nat.not_le.mpr hlt
    simp [hindex, hle]
  · have hle : 48 ≤ i := Nat.le_of_not_lt hlt
    rw [hptr.getLsbD hle hi]
    cases ptr.getLsbD 47 with
    | false => simp
    | true => simp [hi, hle]

/-- Handles hold what handle pointers hold, each part of a handle pointer is what it was last set
to, whatever the other was set to, and page handles hold addresses. -/
theorem handles_round_trip (htype : HandleType) (offset : ℕ) (ho : offset < 48) :
    (∀ ptr data glob, HandlePointer.IsPointer offset ptr → data.toNat < 2 ^ (7 + offset) →
      let p : HandlePointer htype offset :=
        .ofHandle ((HandlePointer.make ptr data : HandlePointer htype offset).toHandle glob)
      p.getPointer = ptr ∧ p.getData = data) ∧
    (∀ (p : HandlePointer htype offset) us,
      (p.run us).getPointer = (p.run (us.filter fun u => !u.isData)).getPointer ∧
      (p.run us).getData = (p.run (us.filter (·.isData))).getData ∧
      ((∀ u ∈ us, u.Fits offset) →
        (p.run us).contents = us.foldl HandlePointer.Contents.apply p.contents)) ∧
    ∀ ptr glob, Canonical ptr → (Handle.make .page ptr glob).getPage = ptr := by
  refine ⟨fun ptr data glob hptr hdata => ?_, fun p us => ⟨?_, ?_, ?_⟩, fun ptr glob hptr => ?_⟩
  · exact HandlePointer.ofHandle_toHandle_make hptr hdata ho glob
  · exact HandlePointer.getPointer_run us p p ho rfl
  · exact HandlePointer.getData_run us p p ho rfl
  · exact HandlePointer.contents_run us p ho
  · exact Handle.getPage_make hptr glob

/-- A file of the initial ram disk in the upper half. -/
theorem handles_round_trip_file :
    let p : HandlePointer .initRdFile 9 := .ofHandle
      ((HandlePointer.make 0xFFFF800000001200 0xBEEF : HandlePointer .initRdFile 9).toHandle true)
    p.getPointer = 0xFFFF800000001200 ∧ p.getData = 0xBEEF :=
  (handles_round_trip .initRdFile 9 (by decide)).1 0xFFFF800000001200 0xBEEF true
    ⟨by unfold Canonical; decide, by decide⟩ (by decide)

end Beelzebub.Handles
