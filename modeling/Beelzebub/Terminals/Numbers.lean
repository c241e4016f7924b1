import Beelzebub.Utils.IntegerConversions

/-!
# Printing numbers

The writers of numbers fill a local buffer from its end with digits and pass the address of the
first one.  The pointer of `WriteHexVar` is decremented behind every digit, the last one included,
and so what it passes starts one byte too early.
-/

namespace Beelzebub.Terminals

open Conversions Numerals

/-! ## The code -/

/-- What comes to `Write`. -/
inductive Passed where
  | unsupported
  | outside
  | text (str : List UInt8)
  deriving DecidableEq

/-- `str[i] = c`. -/
def put (str : List UInt8) (i : ℤ) (c : UInt8) : Option (List UInt8) :=
  if 0 ≤ i ∧ i < str.length then some (str.set i.toNat c) else none

/-- The string that `Write` reads from a position of the buffer on. -/
def passed (str : List UInt8) (start : ℤ) : Passed :=
  if start < 0 ∨ 0 ∉ str.drop start.toNat then .outside
  else .text ((str.drop start.toNat).takeWhile (· ≠ 0))

/-- A local array of characters.  What it holds is left over from before, but for the zero that was
stored at its end. -/
def localBuffer (stack : ℕ → UInt8) (size : ℕ) : List UInt8 := (List.range size).map stack ++ [0]

/-- The loop of `WriteIntD` and `WriteUIntD`: the buffer and `i` after it. -/
def decimalLoop (str : List UInt8) (i x : ℕ) : Option (List UInt8 × ℕ) :=
  let digit := x % 10
  match put str (19 - i) (UInt8.ofNat (0x30 + digit)) with
  | none => none
  | some str =>
      if x / 10 > 0 ∧ i + 1 < 20 then decimalLoop str (i + 1) (x / 10) else some (str, i + 1)
termination_by x
decreasing_by omega

def writeIntD (canOutput : Bool) (stack : ℕ → UInt8) (val : Int64) : Passed :=
  if !canOutput then .unsupported
  else
    let x : UInt64 := if val > 0 then val.toUInt64 else (-val).toUInt64
    match decimalLoop (localBuffer stack 20) 0 x.toNat with
    | none => .outside
    | some (str, i) =>
        if val < 0 then
          match put str (19 - i) 0x2D with
          | none => .outside
          | some str => passed str (20 - (i + 1))
        else passed str (20 - i)

def writeUIntD (canOutput : Bool) (stack : ℕ → UInt8) (val : UInt64) : Passed :=
  if !canOutput then .unsupported
  else
    match decimalLoop (localBuffer stack 20) 0 val.toNat with
    | none => .outside
    | some (str, i) => passed str (20 - i)

/-- `(nib > 9 ? alphaBase : '0') + nib`. -/
def nibChar (upper : Bool) (nib : ℕ) : UInt8 :=
  let alphaBase : UInt8 := (if upper then 0x41 else 0x61) - 10
  (if nib > 9 then alphaBase else 0x30) + UInt8.ofNat nib

/-- The loop of `WriteHexVar`: the buffer and `ptr` after it. -/
def hexLoop (upper : Bool) (str : List UInt8) (ptr : ℤ) (val : ℕ) : Option (List UInt8 × ℤ) :=
  let nib := val &&& 0xF
  match put str ptr (nibChar upper nib) with
  | none => none
  | some str =>
      if val >>> 4 > 0 then hexLoop upper str (ptr - 1) (val >>> 4) else some (str, ptr - 1)
termination_by val
decreasing_by
  rw [Nat.shiftRight_eq_div_pow] at *
  omega

def writeHexVar (canOutput : Bool) (stack : ℕ → UInt8) (val : UInt64) (upper : Bool) : Passed :=
  if !canOutput then .unsupported
  else
    match hexLoop upper (localBuffer stack 16) 15 val.toNat with
    | none => .outside
    | some (str, ptr) => passed str ptr

/-! ## Numerals -/

def decimalChar (d : ℕ) : UInt8 := UInt8.ofNat (0x30 + d)

def decimalText (x : ℕ) : List UInt8 := (canonical 10 x).map decimalChar

def signedText (v : ℤ) : List UInt8 :=
  if v < 0 then 0x2D :: decimalText v.natAbs else decimalText v.natAbs

def hexText (upper : Bool) (x : ℕ) : List UInt8 := (canonical 16 x).map (nibChar upper)

/-- The number that a numeral with or without a sign stands for. -/
def readDecimal (str : List UInt8) : Option ℤ :=
  if str.head? = some 0x2D then (numeral (digitBelow 10) 10 str.tail).map fun v : ℕ => -(v : ℤ)
  else (numeral (digitBelow 10) 10 str).map fun v : ℕ => (v : ℤ)

theorem digitBelow_decimalChar : ∀ d < 10, digitBelow 10 (decimalChar d) = some d := by decide

theorem hexDigit_nibChar (upper : Bool) : ∀ d < 16, hexDigit (nibChar upper d) = some d := by
  cases upper <;> decide

theorem decimalText_read (x : ℕ) : numeral (digitBelow 10) 10 (decimalText x) = some x := by
  have hdigits : ∀ d ∈ canonical 10 x, digitBelow 10 (decimalChar d) = some d :=
    fun d hd => digitBelow_decimalChar d (canonical_lt (by decide) d hd)
  exact (numeral_map hdigits).trans (congrArg some (number_canonical 10 x))

theorem hexText_read (upper : Bool) (x : ℕ) : numeral hexDigit 16 (hexText upper x) = some x := by
  have hdigits : ∀ d ∈ canonical 16 x, hexDigit (nibChar upper d) = some d :=
    fun d hd => hexDigit_nibChar upper d (canonical_lt (by decide) d hd)
  exact (numeral_map hdigits).trans (congrArg some (number_canonical 16 x))

/-! ## Filling the buffer -/

variable {free done t : List UInt8} {g c : UInt8}

theorem put_last : put (free ++ [g] ++ done) free.length c = some (free ++ c :: done) := by
  have hlt : free.length < (free ++ [g] ++ done).length := by
    simp
  unfold put
  rw [if_pos ⟨Int.natCast_nonneg _, Int.ofNat_lt.mpr hlt⟩, Int.toNat_natCast, List.append_assoc,
    List.set_append_right _ _ (Nat.le_refl _), Nat.sub_self]
  rfl

theorem passed_text (ht : 0 ∉ t) : passed (free ++ (t ++ [0])) free.length = .text t := by
  unfold passed
  rw [Int.toNat_natCast, List.drop_left]
  have htake : (t ++ [0]).takeWhile (· ≠ 0) = t := by
    rw [List.takeWhile_append_of_pos]
    · exact List.append_nil t
    · intro c hc
      simp only [decide_eq_true_eq]
      rintro rfl
      exact ht hc
  rw [if_neg, htake]
  simp

/-- A string that begins one character earlier. -/
theorem passed_behind (free : List UInt8) (c : UInt8) (ht : 0 ∉ t) :
    passed (free ++ ([c] ++ (t ++ [0]))) free.length = .text (if c = 0 then [] else c :: t) := by
  by_cases hc : c = 0
  · unfold passed
    rw [Int.toNat_natCast, List.drop_left, hc, if_pos rfl, if_neg (by simp)]
    rfl
  · rw [if_neg hc]
    refine @passed_text free (c :: t) fun hzero => ?_
    rcases List.mem_cons.mp hzero with hzero | hzero
    · exact hc hzero.symm
    · exact ht hzero

/-- The last of the free characters, where there is one. -/
theorem exists_last {n : ℕ} (hn : 0 < n) (h : n ≤ free.length) :
    ∃ free' g, free = free' ++ [g] := by
  rcases List.eq_nil_or_concat' free with rfl | hlast
  · exact absurd (Nat.lt_of_lt_of_le hn h) (Nat.lt_irrefl 0)
  · exact hlast

theorem take_free (free : List UInt8) (g : UInt8) (n : ℕ) :
    (free ++ [g]).take ((free ++ [g]).length - (n + 1)) = free.take (free.length - n) := by
  rw [List.length_append, List.length_singleton, Nat.add_sub_add_right,
    List.take_append_of_le_length (Nat.sub_le _ _)]

/-- The loop writes the digits in front of what is there. -/
theorem decimalLoop_eq (x : ℕ) {i : ℕ} (hfree : free.length + i = 20)
    (hlen : (canonical 10 x).length ≤ free.length) :
    decimalLoop (free ++ done) i x =
      some (free.take (free.length - (canonical 10 x).length) ++ (decimalText x ++ done),
        i + (canonical 10 x).length) := by
  induction x using Nat.strongRecOn generalizing free done i with
  | ind x ih =>
      obtain ⟨free, g, rfl⟩ := exists_last (length_canonical_pos (by decide) x) hlen
      rw [List.length_append, List.length_singleton] at hfree hlen
      have hindex : (19 : ℤ) - i = free.length := by omega
      unfold decimalLoop
      rw [hindex]
      dsimp only
      rw [put_last]
      dsimp only
      by_cases hmore : x / 10 = 0
      · have hdigits := canonical_of_lt (by decide) hmore
        have htext : decimalText x = [decimalChar (x % 10)] := congrArg (List.map _) hdigits
        rw [if_neg (by omega), htext, hdigits, List.length_singleton, ← Nat.zero_add 1, take_free,
          Nat.sub_zero, List.take_length]
        rfl
      · have hdigits := canonical_of_le (by decide) hmore
        have htext : decimalText x = decimalText (x / 10) ++ [decimalChar (x % 10)] :=
          (congrArg (List.map _) hdigits).trans List.map_append
        have hlength : (canonical 10 x).length = (canonical 10 (x / 10)).length + 1 := by
          rw [hdigits, List.length_append, List.length_singleton]
        have hpos := length_canonical_pos (b := 10) (by decide) (x / 10)
        rw [if_pos ⟨by omega, by omega⟩,
          ih (x / 10) (Nat.div_lt_self (by omega) (by decide)) (by omega) (by omega),
          htext, hlength, take_free, List.append_assoc, Nat.add_assoc, Nat.add_comm 1]
        rfl

theorem shiftRight_nib (val : ℕ) : val >>> 4 = val / 16 := Nat.shiftRight_eq_div_pow val 4

theorem and_nib (val : ℕ) : val &&& 0xF = val % 16 := Nat.and_two_pow_sub_one_eq_mod val 4

/-- The same for the loop that keeps a pointer, which ends in front of the digits. -/
theorem hexLoop_eq (upper : Bool) (val : ℕ) (hlen : (canonical 16 val).length ≤ free.length) :
    hexLoop upper (free ++ done) (free.length - 1) val =
      some (free.take (free.length - (canonical 16 val).length) ++ (hexText upper val ++ done),
        (free.length : ℤ) - (canonical 16 val).length - 1) := by
  induction val using Nat.strongRecOn generalizing free done with
  | ind val ih =>
      obtain ⟨free, g, rfl⟩ := exists_last (length_canonical_pos (by decide) val) hlen
      rw [List.length_append, List.length_singleton] at hlen
      have hindex : ((free ++ [g]).length : ℤ) - 1 = free.length := by
        rw [List.length_append, List.length_singleton]
        omega
      unfold hexLoop
      rw [hindex, shiftRight_nib, and_nib]
      dsimp only
      rw [put_last]
      dsimp only
      by_cases hmore : val / 16 = 0
      · have hdigits := canonical_of_lt (by decide) hmore
        have htext : hexText upper val = [nibChar upper (val % 16)] :=
          congrArg (List.map _) hdigits
        rw [if_neg (by omega), htext, hdigits, List.length_singleton, ← Nat.zero_add 1, take_free,
          Nat.sub_zero, List.take_length]
        simp
      · have hdigits := canonical_of_le (by decide) hmore
        have htext : hexText upper val = hexText upper (val / 16) ++ [nibChar upper (val % 16)] :=
          (congrArg (List.map _) hdigits).trans List.map_append
        have hlength : (canonical 16 val).length = (canonical 16 (val / 16)).length + 1 := by
          rw [hdigits, List.length_append, List.length_singleton]
        rw [if_pos (by omega), ih (val / 16) (Nat.div_lt_self (by omega) (by decide)) (by omega),
          htext, hlength, take_free, List.append_assoc]
        simp

/-! ## What is printed -/

theorem zero_not_mem_decimalText (x : ℕ) : 0 ∉ decimalText x := by
  intro hzero
  obtain ⟨d, hd, hchar⟩ := List.mem_map.mp hzero
  have hne : ∀ d < 10, decimalChar d ≠ 0 := by decide
  exact hne d (canonical_lt (by decide) d hd) hchar

theorem zero_not_mem_hexText (upper : Bool) (x : ℕ) : 0 ∉ hexText upper x := by
  intro hzero
  obtain ⟨d, hd, hchar⟩ := List.mem_map.mp hzero
  have hne : ∀ d < 16, nibChar upper d ≠ 0 := by cases upper <;> decide
  exact hne d (canonical_lt (by decide) d hd) hchar

theorem length_map_range (stack : ℕ → UInt8) (n : ℕ) : ((List.range n).map stack).length = n := by
  rw [List.length_map, List.length_range]

/-- The magnitude of the least number is not one of the type, but it is one without a sign. -/
theorem toNat_magnitude (val : Int64) :
    (if val > 0 then val.toUInt64 else (-val).toUInt64).toNat = val.toInt.natAbs := by
  have hint : val.toInt = if 2 * val.toUInt64.toNat < 2 ^ 64 then (val.toUInt64.toNat : ℤ)
      else val.toUInt64.toNat - 2 ^ 64 := by
    exact BitVec.toInt_eq_toNat_cond val.toBitVec
  have hneg : (-val).toUInt64.toNat = (2 ^ 64 - val.toUInt64.toNat) % 2 ^ 64 := by
    exact BitVec.toNat_neg val.toBitVec
  have hlt := val.toUInt64.toNat_lt
  by_cases hpos : val > 0
  · have hpos' : 0 < val.toInt := Int64.lt_iff_toInt_lt.mp hpos
    rw [if_pos hpos]
    split at hint <;> omega
  · have hneg' : ¬0 < val.toInt := fun h => hpos (Int64.lt_iff_toInt_lt.mpr h)
    rw [if_neg hpos, hneg]
    split at hint <;> omega

/-- What the loop leaves in the buffer. -/
theorem decimalLoop_localBuffer (stack : ℕ → UInt8) {x : ℕ}
    (hlen : (canonical 10 x).length ≤ 20) :
    ∃ free, free.length + (canonical 10 x).length = 20 ∧
      decimalLoop (localBuffer stack 20) 0 x =
        some (free ++ (decimalText x ++ [0]), (canonical 10 x).length) := by
  have hfree := length_map_range stack 20
  have hloop := @decimalLoop_eq _ [0] x 0 hfree (by rw [hfree]; exact hlen)
  rw [Nat.zero_add] at hloop
  refine ⟨_, ?_, hloop⟩
  rw [List.length_take, hfree]
  omega

theorem writeUIntD_eq (stack : ℕ → UInt8) (val : UInt64) :
    writeUIntD true stack val = .text (decimalText val.toNat) := by
  have hlen : (canonical 10 val.toNat).length ≤ 20 :=
    length_canonical_le (by decide) (by decide) (Nat.lt_of_lt_of_le val.toNat_lt (by decide))
  obtain ⟨free, hfree, hloop⟩ := decimalLoop_localBuffer stack hlen
  have hstart : (20 : ℤ) - (canonical 10 val.toNat).length = free.length := by omega
  unfold writeUIntD
  rw [if_neg (by decide), hloop]
  dsimp only
  rw [hstart]
  exact passed_text (zero_not_mem_decimalText _)

theorem writeIntD_eq (stack : ℕ → UInt8) (val : Int64) :
    writeIntD true stack val = .text (signedText val.toInt) := by
  have hsmall : val.toInt.natAbs ≤ 2 ^ 63 := by
    have hle := Int64.le_toInt val
    have hlt := Int64.toInt_lt val
    omega
  have hlen : (canonical 10 val.toInt.natAbs).length ≤ 19 :=
    length_canonical_le (by decide) (by decide) (Nat.lt_of_le_of_lt hsmall (by decide))
  obtain ⟨free, hfree, hloop⟩ := decimalLoop_localBuffer stack (Nat.le_succ_of_le hlen)
  have hneg : val < 0 ↔ val.toInt < 0 := Int64.lt_iff_toInt_lt
  unfold writeIntD signedText
  dsimp only
  rw [if_neg (by decide), toNat_magnitude, hloop]
  dsimp only
  by_cases hval : val < 0
  · obtain ⟨free, g, rfl⟩ := @exists_last free 1 (by decide) (by omega)
    rw [List.length_append, List.length_singleton] at hfree
    have hindex : (19 : ℤ) - (canonical 10 val.toInt.natAbs).length = free.length := by omega
    have hstart : (20 : ℤ) - ((canonical 10 val.toInt.natAbs).length + 1) = free.length := by omega
    rw [if_pos hval, if_pos (hneg.mp hval), hindex, put_last]
    dsimp only
    rw [hstart]
    refine @passed_text free (0x2D :: decimalText val.toInt.natAbs) fun hzero => ?_
    rcases List.mem_cons.mp hzero with hminus | hdigit
    · exact absurd hminus (by decide)
    · exact zero_not_mem_decimalText _ hdigit
  · have hstart : (20 : ℤ) - (canonical 10 val.toInt.natAbs).length = free.length := by omega
    rw [if_neg hval, if_neg (mt hneg.mpr hval), hstart]
    exact passed_text (zero_not_mem_decimalText _)

/-- What comes first is left over, and in front of sixteen digits it is not in the buffer. -/
theorem writeHexVar_eq (stack : ℕ → UInt8) (val : UInt64) (upper : Bool) :
    writeHexVar true stack val upper =
      if (canonical 16 val.toNat).length = 16 then .outside
      else
        let c := stack (15 - (canonical 16 val.toNat).length)
        .text (if c = 0 then [] else c :: hexText upper val.toNat) := by
  have hlen : (canonical 16 val.toNat).length ≤ 16 :=
    length_canonical_le (by decide) (by decide) (Nat.lt_of_lt_of_le val.toNat_lt (by decide))
  have hfree := length_map_range stack 16
  have hloop := @hexLoop_eq _ [0] upper val.toNat (by rw [hfree]; exact hlen)
  rw [hfree] at hloop
  have hrun : writeHexVar true stack val upper =
      passed (((List.range 16).map stack).take (16 - (canonical 16 val.toNat).length) ++
        (hexText upper val.toNat ++ [0])) (16 - (canonical 16 val.toNat).length - 1) := by
    unfold writeHexVar localBuffer
    rw [if_neg (by decide)]
    exact congrArg (fun r : Option (List UInt8 × ℤ) =>
      match r with
      | none => Passed.outside
      | some (str, ptr) => passed str ptr) hloop
  rw [hrun]
  by_cases hfull : (canonical 16 val.toNat).length = 16
  · rw [if_pos hfull, hfull]
    rfl
  · rw [if_neg hfull]
    obtain ⟨n, hn⟩ : ∃ n, 16 - (canonical 16 val.toNat).length = n + 1 :=
      ⟨15 - (canonical 16 val.toNat).length, by omega⟩
    have hlast : 15 - (canonical 16 val.toNat).length = n := by omega
    have hptr : (16 : ℤ) - (canonical 16 val.toNat).length - 1 = n := by omega
    have htake : ((List.range 16).map stack).take (n + 1) =
        (List.range n).map stack ++ [stack n] := by
      rw [← List.map_take, List.take_range, Nat.min_eq_left (by omega), List.range_succ,
        List.map_append]
      rfl
    rw [hn, hptr, hlast, htake, List.append_assoc]
    have hpassed := passed_behind ((List.range n).map stack) (stack n)
      (zero_not_mem_hexText upper val.toNat)
    rw [length_map_range] at hpassed
    exact hpassed

section Claims

variable (stack : ℕ → UInt8) (val : UInt64) (ival : Int64) (upper : Bool)

/-- `Write` gets the numeral of the number, which reads as the number. -/
def UnsignedExact : Prop :=
  writeUIntD true stack val = .text (decimalText val.toNat) ∧
    numeral (digitBelow 10) 10 (decimalText val.toNat) = some val.toNat

def SignedExact : Prop :=
  writeIntD true stack ival = .text (signedText ival.toInt) ∧
    readDecimal (signedText ival.toInt) = some ival.toInt

def HexadecimalExact : Prop :=
  writeHexVar true stack val upper = .text (hexText upper val.toNat) ∧
    numeral hexDigit 16 (hexText upper val.toNat) = some val.toNat

/-- All three print numbers as they are. -/
structure NumbersExact : Prop where
  unsigned : UnsignedExact stack val
  signed : SignedExact stack ival
  hexadecimal : HexadecimalExact stack val upper

end Claims

theorem readDecimal_signedText (v : ℤ) : readDecimal (signedText v) = some v := by
  unfold readDecimal signedText
  by_cases hneg : v < 0
  · rw [if_pos hneg, List.head?_cons, if_pos rfl, List.tail_cons, decimalText_read, Option.map_some]
    exact congrArg some (by omega)
  · have hdigit : (decimalText v.natAbs).head? ≠ some 0x2D := by
      intro hminus
      obtain ⟨d, hd, hchar⟩ := List.mem_map.mp (List.mem_of_mem_head? hminus)
      have hne : ∀ d < 10, decimalChar d ≠ 0x2D := by decide
      exact hne d (canonical_lt (by decide) d hd) hchar
    rw [if_neg hneg, if_neg hdigit, decimalText_read, Option.map_some]
    exact congrArg some (by omega)

theorem not_hexadecimalExact (stack : ℕ → UInt8) (val : UInt64) (upper : Bool) :
    ¬HexadecimalExact stack val upper := by
  rintro ⟨htext, -⟩
  rw [writeHexVar_eq] at htext
  split at htext
  · exact nomatch htext
  · have hsame := Passed.text.inj htext
    split at hsame
    · have hempty := congrArg List.length hsame
      unfold hexText at hempty
      rw [List.length_map] at hempty
      exact Nat.ne_of_lt (length_canonical_pos (by decide) val.toNat) hempty
    · exact absurd (congrArg List.length hsame) (Nat.succ_ne_self _)

/-- Decimal numbers are always printed exactly, and hexadecimal ones never. -/
theorem numbers_printed (stack : ℕ → UInt8) (val : UInt64) (ival : Int64) (upper : Bool) :
    (UnsignedExact stack val ∧ SignedExact stack ival) ∧ ¬HexadecimalExact stack val upper :=
  ⟨⟨⟨writeUIntD_eq stack val, decimalText_read _⟩,
    writeIntD_eq stack ival, readDecimal_signedText _⟩, not_hexadecimalExact stack val upper⟩

/-- Zero has something left over in front of it. -/
theorem not_numbersExact :
    ¬ ∀ (stack : ℕ → UInt8) (val : UInt64) (ival : Int64) (upper : Bool),
      NumbersExact stack val ival upper :=
  fun h => not_hexadecimalExact (fun _ => 0x20) 0 false (h (fun _ => 0x20) 0 0 false).hexadecimal

end Beelzebub.Terminals
