import Beelzebub.Handles
import Beelzebub.Terminals.Numbers
import Mathlib.Data.List.TakeWhile

/-!
# The widths of printed numbers

A number that goes to the debugger as it is has no text to count, and so its width is found with
divisions.  Where it is too large for a packet it is printed as text after all, and the width is
then the number of characters written.
-/

namespace Beelzebub.Terminals

open Conversions Numerals

/-! ## The code -/

/-- `if (val >= bound) { count += n; val /= bound; }`. -/
def divide (bound n : ℕ) (r : ℕ × ℕ) : ℕ × ℕ :=
  if r.2 ≥ bound then (r.1 + n, r.2 / bound) else r

/-- `if (val >> bits) { count += n; val >>= bits; }`. -/
def shift (bits n : ℕ) (r : ℕ × ℕ) : ℕ × ℕ :=
  if r.2 >>> bits ≠ 0 then (r.1 + n, r.2 >>> bits) else r

/-- The last division need not be done. -/
def uint64LenHelper (val : ℕ) : ℕ :=
  let r := divide 100 2 (divide 10000 4 (divide 100000000 8 (divide 10000000000000000 16 (1, val))))
  if r.2 ≥ 10 then r.1 + 1 else r.1

def int64LenHelper (val : Int64) : ℕ :=
  if val > 0 then uint64LenHelper val.toUInt64.toNat
  else uint64LenHelper (-val).toUInt64.toNat + 1

def hex64LenHelper (val : ℕ) : ℕ :=
  let r := shift 8 2 (shift 16 4 (shift 32 8 (1, val)))
  if r.2 >>> 4 ≠ 0 then r.1 + 1 else r.1

inductive DjinnLogRes where
  | success
  | noDebuggers
  | fail
  | stringify
deriving DecidableEq

/-- The coordinates are invalid in all of them. -/
structure TerminalWriteResult where
  result : HandleResult
  size : ℕ
deriving DecidableEq

/-- `(c & 0xC0) != 0x80`: the byte is the first of a character. -/
def leading (c : UInt8) : Bool := c &&& 0xC0 != 0x80

/-- `WriteWrapper` and `cont`, with what `DjinnLog` answers, which sends no more than `limit` bytes
at once.  Behind the last answer nothing is known. -/
def writeWrapper (limit : ℕ) :
    List UInt8 → ℕ → List DjinnLogRes → Option (TerminalWriteResult × Bool)
  | [], u, _ => some (⟨.okay, u⟩, true)
  | _ :: _, _, [] => none
  | c :: str, u, .success :: answers =>
      let sent := (c :: str).take limit
      writeWrapper limit ((c :: str).drop limit)
        (u + (sent.takeWhile (· ≠ 0)).countP leading) answers
  | _ :: _, u, .noDebuggers :: _ => some (⟨.okay, u⟩, false)
  | _ :: _, u, _ :: _ => some (⟨.failed, u⟩, false)

/-- The three writers that take numbers of any width. -/
inductive Call where
  | intD (val : Int64)
  | uintD (val : UInt64)
  | hexVar (val : UInt64) (upper : Bool)

namespace Call

/-- What `TerminalBase` passes to `Write`, which the terminal is capable of. -/
def passed (stack : ℕ → UInt8) : Call → Passed
  | intD val => writeIntD true stack val
  | uintD val => writeUIntD true stack val
  | hexVar val upper => writeHexVar true stack val upper

/-- The size that `DjinnTerminal` reports. -/
def width : Call → ℕ
  | intD val => int64LenHelper val
  | uintD val => uint64LenHelper val.toNat
  | hexVar val _ => hex64LenHelper val.toNat

/-- The method of `TerminalBase`, and whether the text was written to its end. -/
def base (stack : ℕ → UInt8) (limit : ℕ) (answers : List DjinnLogRes) (c : Call) :
    Option (TerminalWriteResult × Bool) :=
  match c.passed stack with
  | .unsupported => some (⟨.unsupportedOperation, 0⟩, false)
  | .outside => none
  | .text str => writeWrapper limit str 0 answers

/-- The method of `DjinnTerminal` when the first call answers `log`. -/
def djinn (stack : ℕ → UInt8) (limit : ℕ) (answers : List DjinnLogRes) (log : DjinnLogRes)
    (c : Call) : Option TerminalWriteResult :=
  match log with
  | .success | .noDebuggers => some ⟨.okay, c.width⟩
  | .stringify => (c.base stack limit answers).map (·.1)
  | .fail => some ⟨.failed, 0⟩

end Call

/-! ## The number of digits -/

section Digits

variable {b N k : ℕ} {r : ℕ × ℕ}

/-- So many digits are counted, and so many are left. -/
structure Counted (b N k : ℕ) (r : ℕ × ℕ) : Prop where
  sum : r.1 + (canonical b r.2).length = N + 1
  lt : r.2 < b ^ k

/-- A division by the middle power halves the number of digits that are left. -/
theorem Counted.divide (hb : 1 < b) (h : Counted b N (k + k) r) :
    Counted b N k (divide (b ^ k) k r) := by
  unfold Terminals.divide
  by_cases hle : r.2 ≥ b ^ k
  · rw [if_pos hle]
    have hsum := h.sum
    rw [length_canonical_div hb hle] at hsum
    constructor
    · dsimp only
      omega
    · have hlt := h.lt
      rw [Nat.pow_add] at hlt
      exact Nat.div_lt_of_lt_mul hlt
  · rw [if_neg hle]
    exact ⟨h.sum, Nat.lt_of_not_le hle⟩

theorem shift_eq (bits n : ℕ) (r : ℕ × ℕ) : shift bits n r = divide (2 ^ bits) n r := by
  unfold shift divide
  rw [Nat.shiftRight_eq_div_pow]
  refine if_congr ?_ rfl rfl
  rw [Ne, Nat.div_eq_zero_iff_lt (Nat.two_pow_pos bits), Nat.not_lt]

/-- One digit is left behind the last division. -/
theorem Counted.fst_eq (hb : 1 < b) (h : Counted b N 1 r) : r.1 = N := by
  have hsum := h.sum
  have hlt := h.lt
  rw [Nat.pow_one] at hlt
  rw [canonical_of_lt hb (Nat.div_eq_of_lt hlt), List.length_singleton] at hsum
  exact Nat.succ.inj hsum

theorem divide_fst (bound n : ℕ) (r : ℕ × ℕ) :
    (divide bound n r).1 = if r.2 ≥ bound then r.1 + n else r.1 := by
  unfold divide
  split <;> rfl

theorem uint64LenHelper_eq {val : ℕ} (h : val < 2 ^ 64) :
    uint64LenHelper val = (canonical 10 val).length := by
  have h32 : Counted 10 (canonical 10 val).length (16 + 16) (1, val) :=
    ⟨Nat.add_comm _ _, Nat.lt_of_lt_of_le h (by decide)⟩
  have h16 := h32.divide (by decide)
  have h8 := h16.divide (k := 8) (by decide)
  have h4 := h8.divide (k := 4) (by decide)
  have h2 := h4.divide (k := 2) (by decide)
  have h1 := (h2.divide (k := 1) (by decide)).fst_eq (by decide)
  rw [divide_fst] at h1
  exact h1

theorem hex64LenHelper_eq {val : ℕ} (h : val < 2 ^ 64) :
    hex64LenHelper val = (canonical 16 val).length := by
  have h16 : Counted 16 (canonical 16 val).length (8 + 8) (1, val) := ⟨Nat.add_comm _ _, h⟩
  have h8 := h16.divide (by decide)
  have h4 := h8.divide (k := 4) (by decide)
  have h2 := h4.divide (k := 2) (by decide)
  have h1 := (h2.divide (k := 1) (by decide)).fst_eq (by decide)
  have hlast (r : ℕ × ℕ) : (if r.2 >>> 4 ≠ 0 then r.1 + 1 else r.1) = (divide 16 1 r).1 := by
    refine Eq.trans ?_ (congrArg Prod.fst (shift_eq 4 1 r))
    unfold shift
    split <;> rfl
  unfold hex64LenHelper
  rw [hlast, shift_eq, shift_eq, shift_eq]
  exact h1

/-- Only for zero there is a sign too many. -/
theorem int64LenHelper_eq_iff (val : Int64) :
    int64LenHelper val = (signedText val.toInt).length ↔ val ≠ 0 := by
  have hmagnitude := toNat_magnitude val
  have hsmall : val.toInt.natAbs < 2 ^ 64 := by
    rw [← hmagnitude]
    exact UInt64.toNat_lt _
  have hlength : (decimalText val.toInt.natAbs).length = uint64LenHelper val.toInt.natAbs := by
    rw [uint64LenHelper_eq hsmall, decimalText, List.length_map]
  have hzero : val = 0 ↔ val.toInt = 0 := Int64.toInt_inj.symm
  have hpos : val > 0 ↔ 0 < val.toInt := Int64.lt_iff_toInt_lt
  unfold int64LenHelper signedText
  by_cases h : val > 0
  · rw [if_pos h] at hmagnitude
    have hne := Int.ne_of_gt (hpos.mp h)
    rw [if_pos h, if_neg (Int.not_lt.mpr (Int.le_of_lt (hpos.mp h))), hlength, hmagnitude, Ne,
      hzero]
    exact ⟨fun _ => hne, fun _ => rfl⟩
  · rw [if_neg h] at hmagnitude
    rw [if_neg h, hmagnitude, Ne, hzero]
    by_cases hneg : val.toInt < 0
    · rw [if_pos hneg, List.length_cons, hlength]
      exact ⟨fun _ => Int.ne_of_lt hneg, fun _ => rfl⟩
    · rw [if_neg hneg, hlength]
      have heq : val.toInt = 0 :=
        Int.le_antisymm (Int.not_lt.mp (mt hpos.mpr h)) (Int.not_lt.mp hneg)
      exact ⟨fun hsucc => absurd hsucc (Nat.succ_ne_self _), fun hne => absurd heq hne⟩

end Digits

/-! ## The number of characters -/

section Characters

variable {limit u : ℕ} {str : List UInt8} {answers : List DjinnLogRes}

/-- However it is cut into packets, all of its characters are counted. -/
theorem writeWrapper_size {res : TerminalWriteResult} (hzero : 0 ∉ str)
    (h : writeWrapper limit str u answers = some (res, true)) :
    res = ⟨.okay, u + str.countP leading⟩ := by
  induction answers generalizing str u with
  | nil =>
      cases str with
      | nil => exact (Prod.mk.inj (Option.some.inj h)).1.symm
      | cons c str => exact nomatch h
  | cons log answers ih =>
      cases str with
      | nil => exact (Prod.mk.inj (Option.some.inj h)).1.symm
      | cons c str =>
          cases log with
          | success =>
              have hsent : ((c :: str).take limit).takeWhile (· ≠ 0) = (c :: str).take limit := by
                refine List.takeWhile_eq_self_iff.mpr fun d hd => decide_eq_true fun hd0 => ?_
                exact hzero (hd0 ▸ List.mem_of_mem_take hd)
              have hrest := ih (fun h0 => hzero (List.mem_of_mem_drop h0)) h
              rw [hrest, hsent, Nat.add_assoc, ← List.countP_append, List.take_append_drop]
          | noDebuggers => exact absurd (Prod.mk.inj (Option.some.inj h)).2 (by decide)
          | fail => exact absurd (Prod.mk.inj (Option.some.inj h)).2 (by decide)
          | stringify => exact absurd (Prod.mk.inj (Option.some.inj h)).2 (by decide)

/-- One packet will do. -/
theorem exists_written (str : List UInt8) :
    ∃ limit answers res, writeWrapper limit str 0 answers = some (res, true) := by
  cases str with
  | nil => exact ⟨0, [], _, rfl⟩
  | cons c str =>
      have hlast (u : ℕ) : writeWrapper (c :: str).length
          ((c :: str).drop (c :: str).length) u [] = some (⟨.okay, u⟩, true) := by
        rw [List.drop_length]
        rfl
      exact ⟨(c :: str).length, [.success], _, hlast _⟩

/-- The characters of a numeral are bytes. -/
theorem countP_map {char : ℕ → UInt8} {b : ℕ} {ds : List ℕ}
    (hchar : ∀ d < b, leading (char d) = true) (hds : ∀ d ∈ ds, d < b) :
    (ds.map char).countP leading = ds.length := by
  rw [List.countP_eq_length.mpr, List.length_map]
  intro c hc
  obtain ⟨d, hd, rfl⟩ := List.mem_map.mp hc
  exact hchar d (hds d hd)

theorem countP_decimalText (x : ℕ) : (decimalText x).countP leading = (canonical 10 x).length :=
  countP_map (by decide) (canonical_lt (by decide))

theorem countP_hexText (upper : Bool) (x : ℕ) :
    (hexText upper x).countP leading = (canonical 16 x).length := by
  refine countP_map ?_ (canonical_lt (by decide))
  cases upper <;> decide

theorem countP_signedText (v : ℤ) : (signedText v).countP leading = (signedText v).length := by
  unfold signedText
  split
  · rw [List.countP_cons_of_pos (by decide), countP_decimalText, List.length_cons, decimalText,
      List.length_map]
  · rw [countP_decimalText, decimalText, List.length_map]

end Characters

/-! ## The widths -/

namespace Call

variable {c : Call} {stack : ℕ → UInt8}

def numeral : Call → List UInt8
  | intD val => signedText val.toInt
  | uintD val => decimalText val.toNat
  | hexVar val upper => hexText upper val.toNat

/-- The width is that of the numeral, and the size is the same whether the number goes to the
debugger or is printed as text to its end. -/
structure Matches (stack : ℕ → UInt8) (c : Call) : Prop where
  digits : c.width = c.numeral.length
  printed : ∃ limit answers res, c.base stack limit answers = some (res, true)
  agree : ∀ limit answers res, c.base stack limit answers = some (res, true) →
    ∀ log, log ≠ .fail → ∃ res', c.djinn stack limit answers log = some res' ∧
      res'.size = res.size

/-- A signed zero has no sign, and what stands in front of hexadecimal digits must be in the buffer
and no character of its own. -/
def Fits (stack : ℕ → UInt8) : Call → Prop
  | intD val => val ≠ 0
  | uintD _ => True
  | hexVar val _ => val.toNat < 2 ^ 60 ∧
      leading (stack (15 - (canonical 16 val.toNat).length)) = false

/-- The characters of the text are to be as many as the width says. -/
theorem matches_iff {str : List UInt8} (hzero : 0 ∉ str) (h : c.passed stack = .text str) :
    c.Matches stack ↔ c.width = c.numeral.length ∧ str.countP leading = c.width := by
  have hbase (limit : ℕ) (answers : List DjinnLogRes) :
      c.base stack limit answers = writeWrapper limit str 0 answers := by
    unfold base
    rw [h]
  constructor
  · intro hmatches
    obtain ⟨limit, answers, res, hres⟩ := hmatches.printed
    obtain ⟨res', hdjinn, hsize⟩ := hmatches.agree limit answers res hres .success (by decide)
    rw [hbase] at hres
    rw [writeWrapper_size hzero hres] at hsize
    cases hdjinn
    exact ⟨hmatches.digits, (hsize.trans (Nat.zero_add _)).symm⟩
  · rintro ⟨hdigits, hcount⟩
    refine ⟨hdigits, ?_, fun limit answers res hres log hlog => ?_⟩
    · obtain ⟨limit, answers, res, hres⟩ := exists_written str
      exact ⟨limit, answers, res, (hbase limit answers).trans hres⟩
    · have hwidth : c.width = res.size := by
        rw [hbase] at hres
        rw [writeWrapper_size hzero hres, ← hcount]
        exact (Nat.zero_add _).symm
      cases log with
      | success => exact ⟨_, rfl, hwidth⟩
      | noDebuggers => exact ⟨_, rfl, hwidth⟩
      | fail => exact absurd rfl hlog
      | stringify =>
          refine ⟨res, ?_, rfl⟩
          show (c.base stack limit answers).map (·.1) = some res
          rw [hres]
          rfl

theorem zero_not_mem_signedText (v : ℤ) : 0 ∉ signedText v := by
  unfold signedText
  split
  · intro hzero
    cases List.mem_cons.mp hzero with
    | inl hminus => exact absurd hminus (by decide)
    | inr hdigit => exact zero_not_mem_decimalText _ hdigit
  · exact zero_not_mem_decimalText _

theorem intD_matches_iff (stack : ℕ → UInt8) (val : Int64) :
    (intD val).Matches stack ↔ val ≠ 0 := by
  have hpassed : (intD val).passed stack = .text (signedText val.toInt) := writeIntD_eq stack val
  rw [matches_iff (zero_not_mem_signedText _) hpassed, countP_signedText, ← int64LenHelper_eq_iff]
  exact ⟨fun h => h.1, fun h => ⟨h, h.symm⟩⟩

theorem uintD_matches (stack : ℕ → UInt8) (val : UInt64) : (uintD val).Matches stack := by
  have hpassed : (uintD val).passed stack = .text (decimalText val.toNat) :=
    writeUIntD_eq stack val
  have hwidth := uint64LenHelper_eq val.toNat_lt
  refine (matches_iff (zero_not_mem_decimalText _) hpassed).mpr ⟨?_, ?_⟩
  · exact hwidth.trans (List.length_map _).symm
  · exact (countP_decimalText _).trans hwidth.symm

theorem length_canonical_lt_iff (val : ℕ) :
    (canonical 16 val).length < 16 ↔ val < 2 ^ 60 := by
  constructor
  · intro h
    have hlt := number_lt (b := 16) (by decide) (canonical_lt (x := val) (by decide))
    rw [number_canonical] at hlt
    exact Nat.lt_of_lt_of_le hlt (Nat.pow_le_pow_right (by decide) (Nat.le_of_lt_succ h))
  · intro h
    exact Nat.lt_succ_of_le (length_canonical_le (by decide) (by decide) h)

theorem hexVar_width (val : UInt64) (upper : Bool) :
    (hexVar val upper).width = (hexVar val upper).numeral.length :=
  (hex64LenHelper_eq val.toNat_lt).trans (List.length_map _).symm

theorem hexVar_matches_iff (stack : ℕ → UInt8) (val : UInt64) (upper : Bool) :
    (hexVar val upper).Matches stack ↔ (hexVar val upper).Fits stack := by
  have hwidth : (hexVar val upper).width = (canonical 16 val.toNat).length :=
    hex64LenHelper_eq val.toNat_lt
  have hpassed : (hexVar val upper).passed stack = _ := writeHexVar_eq stack val upper
  show _ ↔ val.toNat < 2 ^ 60 ∧ leading (stack (15 - (canonical 16 val.toNat).length)) = false
  rw [← length_canonical_lt_iff]
  by_cases hfull : (canonical 16 val.toNat).length = 16
  · rw [if_pos hfull] at hpassed
    constructor
    · intro h
      obtain ⟨limit, answers, res, hres⟩ := h.printed
      unfold base at hres
      rw [hpassed] at hres
      exact nomatch hres
    · exact fun h => absurd hfull (Nat.ne_of_lt h.1)
  · have hle : (canonical 16 val.toNat).length ≤ 16 :=
      length_canonical_le (by decide) (by decide) val.toNat_lt
    have hlt : (canonical 16 val.toNat).length < 16 := Nat.lt_of_le_of_ne hle hfull
    have hpos := length_canonical_pos (b := 16) (by decide) val.toNat
    rw [if_neg hfull] at hpassed
    rw [and_iff_right hlt]
    generalize stack (15 - (canonical 16 val.toNat).length) = c at hpassed ⊢
    dsimp only at hpassed
    by_cases hc : c = 0
    · rw [if_pos hc] at hpassed
      rw [matches_iff List.not_mem_nil hpassed, hwidth, hc]
      exact ⟨fun h => absurd h.2 (Nat.ne_of_lt hpos), fun h => absurd h (by decide)⟩
    · rw [if_neg hc] at hpassed
      have hzero : 0 ∉ c :: hexText upper val.toNat := fun h =>
        (List.mem_cons.mp h).elim (fun h => hc h.symm) (zero_not_mem_hexText upper _)
      rw [matches_iff hzero hpassed, and_iff_right (hexVar_width val upper), hwidth,
        List.countP_cons, countP_hexText]
      cases leading c with
      | false => exact ⟨fun _ => rfl, fun _ => rfl⟩
      | true => exact ⟨fun h => absurd h (Nat.succ_ne_self _), fun h => nomatch h⟩

end Call

/-- The helpers count the digits of every number, and with the sign those of all but a signed zero.
The sizes agree for unsigned numbers, for signed ones but zero, and for hexadecimal ones where the
byte that is printed in front of them is not counted. -/
theorem widths_match_iff (stack : ℕ → UInt8) (c : Call) :
    (c.width = c.numeral.length ↔ c ≠ .intD 0) ∧ (c.Matches stack ↔ c.Fits stack) := by
  cases c with
  | intD val =>
      refine ⟨(int64LenHelper_eq_iff val).trans ?_, Call.intD_matches_iff stack val⟩
      rw [Ne, Ne, Call.intD.injEq]
  | uintD val =>
      have hmatches := Call.uintD_matches stack val
      exact ⟨⟨fun _ => nofun, fun _ => hmatches.digits⟩, ⟨fun _ => trivial, fun _ => hmatches⟩⟩
  | hexVar val upper =>
      exact ⟨⟨fun _ => nofun, fun _ => Call.hexVar_width val upper⟩,
        Call.hexVar_matches_iff stack val upper⟩

/-- The width of a signed zero is two. -/
theorem not_widths_match :
    ¬ ∀ (stack : ℕ → UInt8) (c : Call), c.Matches stack := by
  intro h
  have hzero : (Call.intD 0).width = 1 := (h (fun _ => 0) (.intD 0)).digits
  exact absurd hzero (by decide)

end Beelzebub.Terminals
