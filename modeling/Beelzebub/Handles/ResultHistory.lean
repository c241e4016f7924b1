import Beelzebub.Handles.Pointers

/-!
# Results put in front

A result handle has room for six results.  A new one is put in front of the others, which moves them
up by a byte, and the count of them stops at six.
-/

namespace Beelzebub.Handles.Handle

/-! ## The code -/

def typeBits : BitVec 64 := 0x00000000000000FF
def resultCountBits : BitVec 64 := 0x7000000000000000
def resultCountOffset : ℕ := 60
def resultsPreshiftBits : BitVec 64 := 0x0000FFFFFFFFFF00
def resultsShiftOffset : ℕ := 8
def resultPrimaryOffset : ℕ := 8

def getResultCount (h : Handle) : ℕ := ((h.bytes 7 &&& 0x70) >>> 4).toNat

def isGlobalOrFatal (h : Handle) : Bool := 0 != h.bytes 7 &&& 0x80

/-- A result is any byte.  `Handle()` is zero. -/
def withPreppendedResult (h : Handle) (res : BitVec 8) : Handle :=
  if !h.isType .result then ⟨0⟩
  else
    let resultCount := h.getResultCount
    let nonResultBits :=
      if resultCount < 6 then
        BitVec.ofNat 64 (resultCount + 1) <<< resultCountOffset |||
          (h.value &&& (typeBits ||| globalFatalBit))
      else h.value &&& (typeBits ||| globalFatalBit ||| resultCountBits)
    ⟨nonResultBits ||| (h.value &&& resultsPreshiftBits) <<< resultsShiftOffset |||
      res.setWidth 64 <<< resultPrimaryOffset⟩

/-! ## Fields -/

variable {h : Handle} {res : BitVec 8} {i : ℕ}

@[simp] theorem getLsbD_typeBits : typeBits.getLsbD i = decide (0 ≤ i ∧ i < 8) :=
  getLsbD_word (by decide) (by decide) i

@[simp] theorem getLsbD_resultCountBits : resultCountBits.getLsbD i = decide (60 ≤ i ∧ i < 63) :=
  getLsbD_word (by decide) (by decide) i

@[simp] theorem getLsbD_resultsPreshiftBits :
    resultsPreshiftBits.getLsbD i = decide (8 ≤ i ∧ i < 48) :=
  getLsbD_word (by decide) (by decide) i

/-- The results, the newest first. -/
def results (h : Handle) : List (BitVec 8) := (List.range 6).map fun i => h.bytes (i + 1)

theorem getResultCount_eq (h : Handle) : h.getResultCount = (h.value.extractLsb' 60 3).toNat := by
  have hbits : (h.bytes 7 &&& 0x70) >>> 4 = (h.value.extractLsb' 60 3).setWidth 8 := by
    refine BitVec.eq_of_getLsbD_eq fun i hi => ?_
    have hmask : ∀ i < 8, (0x70 : BitVec 8).getLsbD i = decide (4 ≤ i ∧ i < 7) := by decide
    simp [bytes, hi]
    grind
  rw [getResultCount, hbits, BitVec.toNat_setWidth]
  exact Nat.mod_eq_of_lt (Nat.lt_trans (BitVec.isLt _) (by decide))

/-- Where each bit comes from. -/
theorem getLsbD_withPreppendedResult (hresult : h.isType .result = true) (hi : i < 64) :
    (h.withPreppendedResult res).value.getLsbD i =
      if i < 8 then h.value.getLsbD i
      else if i < 16 then res.getLsbD (i - 8)
      else if i < 56 then h.value.getLsbD (i - 8)
      else if i < 60 then false
      else if i < 63 then
        if h.getResultCount < 6 then (h.getResultCount + 1).testBit (i - 60) else h.value.getLsbD i
      else h.value.getLsbD i := by
  have hcond : ¬(!h.isType .result) = true := by rw [hresult]; decide
  unfold withPreppendedResult
  rw [if_neg hcond]
  by_cases hlt : h.getResultCount < 6
  · have htop : (h.getResultCount + 1).testBit 3 = false :=
      Nat.testBit_lt_two_pow (Nat.lt_of_le_of_lt hlt (by decide))
    simp [hlt, resultCountOffset, resultsShiftOffset, resultPrimaryOffset]
    grind
  · simp [hlt, resultsShiftOffset, resultPrimaryOffset]
    grind

theorem bytes_congr {h' : Handle} {i j : ℕ}
    (hbits : ∀ k < 8, h'.value.getLsbD (8 * i + k) = h.value.getLsbD (8 * j + k)) :
    h'.bytes i = h.bytes j := by
  refine BitVec.eq_of_getLsbD_eq fun k hk => ?_
  rw [bytes, bytes, BitVec.getLsbD_extractLsb', BitVec.getLsbD_extractLsb', hbits k hk]

/-- The type stays. -/
theorem bytes_zero (hresult : h.isType .result = true) :
    (h.withPreppendedResult res).bytes 0 = h.bytes 0 := by
  refine bytes_congr fun k hk => ?_
  rw [getLsbD_withPreppendedResult hresult (by omega), if_pos (by omega)]

theorem bytes_one (hresult : h.isType .result = true) :
    (h.withPreppendedResult res).bytes 1 = res := by
  refine BitVec.eq_of_getLsbD_eq fun k hk => ?_
  rw [bytes, BitVec.getLsbD_extractLsb', getLsbD_withPreppendedResult hresult (by omega),
    if_neg (by omega), if_pos (by omega), decide_eq_true hk, Bool.true_and,
    Nat.mul_one, Nat.add_sub_cancel_left]

/-- The others move up. -/
theorem bytes_succ (hresult : h.isType .result = true) (hpos : 1 ≤ i) (hi : i < 6) :
    (h.withPreppendedResult res).bytes (i + 1) = h.bytes i := by
  refine bytes_congr fun k hk => ?_
  rw [getLsbD_withPreppendedResult hresult (by omega), if_neg (by omega), if_neg (by omega),
    if_pos (by omega), Nat.mul_succ, Nat.add_right_comm, Nat.add_sub_cancel]

theorem results_withPreppendedResult (hresult : h.isType .result = true) :
    (h.withPreppendedResult res).results = (res :: h.results).take 6 := by
  have hfirst : (h.withPreppendedResult res).bytes 1 = res := bytes_one hresult
  have hrest : ∀ i ∈ List.range 5,
      (h.withPreppendedResult res).bytes (i + 1 + 1) = h.bytes (i + 1) := fun i hi =>
    bytes_succ hresult (Nat.succ_pos i) (Nat.succ_lt_succ (List.mem_range.mp hi))
  have htake : h.results.take 5 = (List.range 5).map fun i => h.bytes (i + 1) := by
    rw [results, ← List.map_take, List.take_range]
    rfl
  rw [List.take_succ_cons, htake, results, List.range_succ_eq_map, List.map_cons, List.map_map,
    hfirst]
  exact congrArg (res :: ·) (List.map_congr_left hrest)

/-- The count stops at six. -/
theorem getResultCount_withPreppendedResult (hresult : h.isType .result = true) :
    (h.withPreppendedResult res).getResultCount =
      if h.getResultCount < 6 then h.getResultCount + 1 else h.getResultCount := by
  have hbits (i : ℕ) (hi : i < 3) :
      (h.withPreppendedResult res).value.getLsbD (60 + i) =
        if h.getResultCount < 6 then (h.getResultCount + 1).testBit i
        else h.value.getLsbD (60 + i) := by
    rw [getLsbD_withPreppendedResult hresult (by omega), if_neg (by omega), if_neg (by omega),
      if_neg (by omega), if_neg (by omega), if_pos (by omega), Nat.add_sub_cancel_left]
  by_cases hlt : h.getResultCount < 6
  · have hcount : (h.withPreppendedResult res).value.extractLsb' 60 3 =
        BitVec.ofNat 3 (h.getResultCount + 1) := by
      refine BitVec.eq_of_getLsbD_eq fun i hi => ?_
      rw [BitVec.getLsbD_extractLsb', hbits i hi, if_pos hlt, BitVec.getLsbD_ofNat]
    rw [if_pos hlt, getResultCount_eq, hcount, BitVec.toNat_ofNat]
    exact Nat.mod_eq_of_lt (by omega)
  · have hcount : (h.withPreppendedResult res).value.extractLsb' 60 3 =
        h.value.extractLsb' 60 3 := by
      refine BitVec.eq_of_getLsbD_eq fun i hi => ?_
      rw [BitVec.getLsbD_extractLsb', BitVec.getLsbD_extractLsb', hbits i hi, if_neg hlt]
    rw [if_neg hlt, getResultCount_eq, hcount, getResultCount_eq]

theorem isGlobalOrFatal_withPreppendedResult (hresult : h.isType .result = true) :
    (h.withPreppendedResult res).isGlobalOrFatal = h.isGlobalOrFatal := by
  have hmask (h : Handle) : h.bytes 7 &&& 0x80 = if h.value.getLsbD 63 then 0x80 else 0 := by
    have hlast : (0x80 : BitVec 8) = BitVec.twoPow 8 7 := rfl
    rw [hlast, BitVec.and_twoPow, bytes, BitVec.getLsbD_extractLsb']
    rfl
  have hbit : (h.withPreppendedResult res).value.getLsbD 63 = h.value.getLsbD 63 :=
    getLsbD_withPreppendedResult hresult (by decide)
  rw [isGlobalOrFatal, isGlobalOrFatal, hmask, hmask, hbit]

/-! ## Histories -/

/-- The calls of `WithPreppendedResult`, one after the other. -/
def run (h : Handle) (rs : List (BitVec 8)) : Handle := rs.foldl withPreppendedResult h

theorem isType_withPreppendedResult (hresult : h.isType .result = true) :
    (h.withPreppendedResult res).isType .result = true := by
  rw [isType, bytes_zero hresult]
  exact hresult

/-- What the handle holds behind the calls. -/
structure History (h : Handle) (rs : List (BitVec 8)) : Prop where
  results : (h.run rs).results = (rs.reverse ++ h.results).take 6
  count : h.getResultCount ≤ 6 →
    (h.run rs).getResultCount = min (h.getResultCount + rs.length) 6
  type : (h.run rs).bytes 0 = h.bytes 0
  fatal : (h.run rs).isGlobalOrFatal = h.isGlobalOrFatal

theorem length_results (h : Handle) : h.results.length = 6 := by
  rw [results, List.length_map, List.length_range]

theorem history (rs : List (BitVec 8)) (hresult : h.isType .result = true) : History h rs := by
  induction rs generalizing h with
  | nil =>
      constructor
      · exact (List.take_of_length_le (Nat.le_of_eq (length_results h))).symm
      · exact fun hle => (Nat.min_eq_left hle).symm
      · rfl
      · rfl
  | cons res rs ih =>
      have hnext := ih (@isType_withPreppendedResult h res hresult)
      have hcount := @getResultCount_withPreppendedResult h res hresult
      constructor
      · rw [List.reverse_cons, List.append_assoc, List.singleton_append]
        refine hnext.results.trans ?_
        rw [results_withPreppendedResult hresult, List.take_append, List.take_append, List.take_take]
        exact congrArg (fun n => _ ++ List.take n _) (Nat.min_eq_left (Nat.sub_le _ _))
      · intro hle
        have hstep : (h.withPreppendedResult res).getResultCount =
            min (h.getResultCount + 1) 6 := by
          rw [hcount]
          split <;> omega
        refine (hnext.count (by omega)).trans ?_
        rw [hstep, List.length_cons]
        omega
      · exact hnext.type.trans (bytes_zero hresult)
      · exact hnext.fatal.trans (isGlobalOrFatal_withPreppendedResult hresult)

/-- The first results are the most recent ones, as many as there are or as there is room for. -/
theorem result_history (h : Handle) (rs : List (BitVec 8)) (hresult : h.isType .result = true) :
    (∀ i < min (rs.length + 1) 6,
      (rs.reverse ++ [h.bytes 1])[i]? = some ((h.run rs).bytes (i + 1))) ∧
    (h.getResultCount = 0 → (h.run rs).getResultCount = min rs.length 6) ∧
    (h.run rs).bytes 0 = h.bytes 0 ∧ (h.run rs).isGlobalOrFatal = h.isGlobalOrFatal := by
  have hhistory := history rs hresult
  refine ⟨fun i hi => ?_, fun hzero => ?_, hhistory.type, hhistory.fatal⟩
  · have hlt : i < 6 := Nat.lt_of_lt_of_le hi (Nat.min_le_right _ _)
    have hlen : i < (rs.reverse ++ [h.bytes 1]).length := by
      rw [List.length_append, List.length_reverse, List.length_singleton]
      exact Nat.lt_of_lt_of_le hi (Nat.min_le_left _ _)
    have hsplit : rs.reverse ++ h.results =
        (rs.reverse ++ [h.bytes 1]) ++ (List.range 5).map fun i => h.bytes (i + 1 + 1) := by
      rw [List.append_assoc, List.singleton_append, results, List.range_succ_eq_map, List.map_cons,
        List.map_map]
      rfl
    have hbyte : (h.run rs).results[i]? = some ((h.run rs).bytes (i + 1)) := by
      rw [results, List.getElem?_map, List.getElem?_range hlt]
      rfl
    rw [← hbyte, hhistory.results, List.getElem?_take_of_lt hlt, hsplit,
      List.getElem?_append_left hlen]
  · rw [hhistory.count (by omega), hzero, Nat.zero_add]

/-- A fatal handle takes seven results. -/
theorem result_history_fatal :
    let h : Handle := ⟨0x8000000000000A01⟩
    let rs : List (BitVec 8) := [1, 2, 3, 4, 5, 6, 7]
    (∀ i < min (rs.length + 1) 6,
      (rs.reverse ++ [h.bytes 1])[i]? = some ((h.run rs).bytes (i + 1))) ∧
    (h.getResultCount = 0 → (h.run rs).getResultCount = min rs.length 6) ∧
    (h.run rs).bytes 0 = h.bytes 0 ∧ (h.run rs).isGlobalOrFatal = h.isGlobalOrFatal :=
  result_history ⟨0x8000000000000A01⟩ [1, 2, 3, 4, 5, 6, 7] (by decide)

end Beelzebub.Handles.Handle
