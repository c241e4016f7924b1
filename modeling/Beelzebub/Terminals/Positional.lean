import Beelzebub.Handles
import Beelzebub.Utils.Strings

/-!
# Positional formatting

`TerminalBase::Write(fmt, argc, argv)` scans a format string with three states.  A terminal is what
was written to it, and every write to it succeeds.
-/

namespace Beelzebub.Positional

open Strings

/-! ## The code -/

/-- A value with what its writer prints of it, for a format text or for none. -/
structure PositionalFormatArgument (α : Type) where
  value : α
  writer : α → Option (List UInt8) → List UInt8

def PositionalFormatArgument.write {α : Type} (arg : PositionalFormatArgument α)
    (format : Option (List UInt8)) : List UInt8 :=
  arg.writer arg.value format

inductive State where
  | outOfFormat
  | readingIndex
  | readingFormat
deriving DecidableEq

/-- The local variables.  A pointer into the format string is a position in it. -/
structure Scan where
  state : State
  argIndex : UInt64
  nakedStart : Option ℕ
  indexStart : ℕ
  formatStart : ℕ
  output : List UInt8

/-- A result with all that was written, or a store behind the end of `formatBuf`. -/
inductive Outcome where
  | returned (result : HandleResult) (output : List UInt8)
  | overrun
deriving DecidableEq

/-- The bytes from one position to another. -/
def between (str : Pointer) (start stop : ℕ) : List UInt8 := (str.drop start).take (stop - start)

/-- The output once the literal text before this position is written. -/
def flushed (str : Pointer) (fmt : ℕ) (s : Scan) : List UInt8 :=
  match s.nakedStart with
  | none => s.output
  | some start => s.output ++ between str start fmt

/-- The loop over the digits.  A `char` from `0x80` on is negative, so that it is below `'0'`. -/
def readIndex : List UInt8 → UInt64 → Option UInt64
  | [], argIndex => some argIndex
  | d :: s, argIndex =>
      if d < 48 ∨ d > 57 then none else readIndex s (argIndex * 10 + (d - 48).toUInt64)

/-- `formatBuf` after the copy: it has `fmt - formatStart` bytes, all of them zero before. -/
def formatBuf (str : Pointer) (formatStart fmt : ℕ) : Option (List UInt8) :=
  match strncpy (str.drop formatStart) (fmt - formatStart - 1) with
  | none => none
  | some stored =>
      if stored.length ≤ fmt - formatStart then
        some (stored ++ List.replicate (fmt - formatStart - stored.length) 0)
      else none

/-- The string that a buffer holds. -/
def stringIn (buf : List UInt8) : List UInt8 := buf.takeWhile (· ≠ 0)

def badSpecifier (s : Scan) : Except Outcome Scan :=
  .error (.returned .formatBadSpecifier s.output)

section
variable {α : Type} (argc : UInt64) (argv : UInt64 → PositionalFormatArgument α) (str : Pointer)

/-- The end of an index: `':'` or `'}'`. -/
def closeIndex (c : UInt8) (fmt : ℕ) (s : Scan) : Except Outcome Scan :=
  if s.indexStart = fmt - 1 then badSpecifier s
  else
    match readIndex (between str s.indexStart (fmt - 1)) s.argIndex with
    | none => badSpecifier s
    | some argIndex =>
        if argIndex ≥ argc then badSpecifier s
        else if c = 58 then
          .ok { s with argIndex := argIndex, formatStart := fmt, state := .readingFormat }
        else
          .ok { s with
            argIndex := argIndex, state := .outOfFormat
            output := s.output ++ (argv argIndex).write none }

/-- The end of a format text. -/
def closeFormat (fmt : ℕ) (s : Scan) : Except Outcome Scan :=
  match formatBuf str s.formatStart fmt with
  | none => .error .overrun
  | some buf =>
      .ok { s with
        state := .outOfFormat
        output := s.output ++ (argv s.argIndex).write (some (stringIn buf)) }

/-- The body of the loop, with `fmt` behind the character. -/
def step (c : UInt8) (fmt : ℕ) (s : Scan) : Except Outcome Scan :=
  match s.state with
  | .readingIndex =>
      if c = 123 then
        if s.indexStart = fmt - 1 then
          .ok { s with output := s.output ++ [123], state := .outOfFormat }
        else badSpecifier s
      else if c = 58 ∨ c = 125 then closeIndex argc argv str c fmt s
      else .ok s
  | .readingFormat =>
      if c = 125 then closeFormat argv str fmt s
      else if c = 123 then badSpecifier s
      else .ok s
  | .outOfFormat =>
      if c = 123 then
        .ok { s with
          output := flushed str (fmt - 1) s, nakedStart := none, state := .readingIndex
          indexStart := fmt, argIndex := 0 }
      else if s.nakedStart = none then .ok { s with nakedStart := some (fmt - 1) }
      else .ok s

/-- The loop over what is left of the string, and what follows it. -/
def scan : List UInt8 → ℕ → Scan → Outcome
  | [], fmt, s =>
      if s.state ≠ .outOfFormat then .returned .formatBadSpecifier s.output
      else .returned .okay (flushed str fmt s)
  | c :: rest, fmt, s =>
      match step argc argv str c (fmt + 1) s with
      | .error res => res
      | .ok s => scan rest (fmt + 1) s

end

def start : Scan := ⟨.outOfFormat, 0, none, 0, 0, []⟩

def write {α : Type} (fmt : CString) (argc : UInt64)
    (argv : UInt64 → PositionalFormatArgument α) : Outcome :=
  scan argc argv fmt.bytes fmt.chars 0 start

/-! ## What is asked -/

/-- The grammar of format strings, with literal text taken apart into its characters. -/
inductive Piece where
  | literal (c : UInt8)
  | brace
  | item (index : List UInt8) (text : Option (List UInt8))

def isDigit (d : UInt8) : Bool := 48 ≤ d ∧ d ≤ 57

/-- The value of a numeral that goes on from another one. -/
def numeralFrom (n : ℕ) (digits : List UInt8) : ℕ :=
  digits.foldl (fun n d => n * 10 + (d.toNat - 48)) n

def numeral (digits : List UInt8) : ℕ := numeralFrom 0 digits

namespace Piece

def spell : Piece → List UInt8
  | literal c => [c]
  | brace => [123, 123]
  | item index none => 123 :: (index ++ [125])
  | item index (some text) => 123 :: (index ++ 58 :: (text ++ [125]))

def WellFormed : Piece → Prop
  | literal c => c ≠ 123
  | brace => True
  | item index text =>
      index ≠ [] ∧ (∀ d ∈ index, isDigit d = true) ∧ ∀ t ∈ text, 123 ∉ t ∧ 125 ∉ t

/-- The index is that of an argument. -/
def InRange (argc : UInt64) : Piece → Prop
  | item index _ => numeral index < argc.toNat
  | _ => True

/-- The index modulo `2 ^ 64` is. -/
def WrapsInRange (argc : UInt64) : Piece → Prop
  | item index _ => numeral index % 2 ^ 64 < argc.toNat
  | _ => True

def EmptyText : Piece → Prop
  | item _ (some []) => True
  | _ => False

def prints {α : Type} (argv : UInt64 → PositionalFormatArgument α) : Piece → List UInt8
  | literal c => [c]
  | brace => [123]
  | item index text => (argv (UInt64.ofNat (numeral index))).write text

end Piece

def spell (ps : List Piece) : List UInt8 := ps.flatMap Piece.spell

def prints {α : Type} (argv : UInt64 → PositionalFormatArgument α) (ps : List Piece) : List UInt8 :=
  ps.flatMap (Piece.prints argv)

/-- The string follows the grammar, with these pieces. -/
def Parses (argc : UInt64) (fmt : CString) (ps : List Piece) : Prop :=
  (∀ p ∈ ps, p.WellFormed ∧ p.InRange argc) ∧ fmt.chars = spell ps

structure Follows {α : Type} (argc : UInt64) (argv : UInt64 → PositionalFormatArgument α)
    (fmt : CString) (res : Outcome) : Prop where
  rejects : (∃ output, res = .returned .formatBadSpecifier output) ↔ ¬ ∃ ps, Parses argc fmt ps
  prints : ∀ ps, Parses argc fmt ps → res = .returned .okay (prints argv ps)
  within : res ≠ .overrun

/-- What the scanner takes for an item it can print. -/
def Taken (argc : UInt64) (p : Piece) : Prop :=
  p.WellFormed ∧ p.WrapsInRange argc ∧ ¬ p.EmptyText

/-- No empty format text is reached, and no index of a string that is taken wraps around. -/
structure Fit (argc : UInt64) (fmt : CString) : Prop where
  nonempty : ∀ ps (p : Piece) rest, (∀ q ∈ ps, Taken argc q) → p.WellFormed → p.WrapsInRange argc →
    p.EmptyText → fmt.chars ≠ spell ps ++ (p.spell ++ rest)
  short : ∀ ps, (∀ p ∈ ps, Taken argc p) → fmt.chars = spell ps → ∀ p ∈ ps, p.InRange argc

/-! ## Positions -/

variable {α : Type} {argc : UInt64} {argv : UInt64 → PositionalFormatArgument α} {str : Pointer}
variable {s s' : Scan} {c : UInt8} {fmt : ℕ} {rest done ds t : List UInt8}

theorem between_self (str : Pointer) (pos : ℕ) : between str pos pos = [] := by
  show (str.drop pos).take (pos - pos) = []
  rw [Nat.sub_self]
  exact List.take_zero

theorem between_succ {start pos : ℕ} (hle : start ≤ pos) (hget : str[pos]? = some c) :
    between str start (pos + 1) = between str start pos ++ [c] := by
  show (str.drop start).take (pos + 1 - start) = (str.drop start).take (pos - start) ++ [c]
  have hpos : start + (pos - start) = pos := Nat.add_sub_cancel' hle
  rw [Nat.sub_add_comm hle, List.take_add_one, List.getElem?_drop, hpos, hget]
  rfl

theorem between_append (done ds rest : List UInt8) :
    between (done ++ (ds ++ rest)) done.length (done.length + ds.length) = ds := by
  show ((done ++ (ds ++ rest)).drop done.length).take (done.length + ds.length - done.length) = ds
  rw [List.drop_left, Nat.add_sub_cancel_left, List.take_left]

theorem getElem?_append_cons : (done ++ c :: rest)[done.length]? = some c := by
  rw [List.getElem?_append_right (Nat.le_refl _), Nat.sub_self]
  rfl

/-! ## Indices -/

theorem numeralFrom_cons (n : ℕ) (d : UInt8) (ds : List UInt8) :
    numeralFrom n (d :: ds) = numeralFrom (n * 10 + (d.toNat - 48)) ds := by
  unfold numeralFrom
  rw [List.foldl_cons]

/-- A numeral that wraps on its way has the same value at its end, up to the modulus. -/
theorem numeralFrom_mod (m n : ℕ) (ds : List UInt8) :
    numeralFrom (n % m) ds % m = numeralFrom n ds % m := by
  induction ds generalizing n with
  | nil => exact Nat.mod_mod _ _
  | cons d ds ih =>
      rw [numeralFrom_cons, numeralFrom_cons, ← ih (n % m * 10 + _), ← ih (n * 10 + _),
        Nat.add_mod, Nat.mod_mul_mod, ← Nat.add_mod]

theorem isDigit_iff : isDigit c = true ↔ 48 ≤ c.toNat ∧ c.toNat ≤ 57 := by
  unfold isDigit
  rw [decide_eq_true_iff, UInt8.le_iff_toNat_le, UInt8.le_iff_toNat_le]
  rfl

theorem readIndex_cons (argIndex : UInt64) (h : isDigit c = true) :
    readIndex (c :: ds) argIndex = readIndex ds (argIndex * 10 + (c - 48).toUInt64) := by
  rw [isDigit_iff] at h
  refine if_neg ?_
  rw [gt_iff_lt, UInt8.lt_iff_toNat_lt, UInt8.lt_iff_toNat_lt]
  show ¬ (c.toNat < 48 ∨ 57 < c.toNat)
  omega

theorem toNat_digit (argIndex : UInt64) (h : isDigit c = true) :
    (argIndex * 10 + (c - 48).toUInt64).toNat =
      (argIndex.toNat * 10 + (c.toNat - 48)) % 2 ^ 64 := by
  rw [isDigit_iff] at h
  have hsub : (c - 48).toNat = c.toNat - 48 :=
    UInt8.toNat_sub_of_le c 48 (UInt8.le_iff_toNat_le.mpr h.1)
  rw [UInt64.toNat_add, UInt64.toNat_mul, UInt8.toNat_toUInt64, hsub, Nat.mod_add_mod]
  rfl

/-- Digits are read modulo `2 ^ 64`. -/
theorem readIndex_digits (hds : ∀ d ∈ ds, isDigit d = true) (argIndex : UInt64) :
    readIndex ds argIndex = some (UInt64.ofNat (numeralFrom argIndex.toNat ds)) := by
  induction ds generalizing argIndex with
  | nil =>
      show some argIndex = some (UInt64.ofNat argIndex.toNat)
      rw [UInt64.ofNat_toNat]
  | cons d ds ih =>
      have hd := hds d List.mem_cons_self
      rw [readIndex_cons argIndex hd, ih fun d h => hds d (List.mem_cons_of_mem _ h),
        toNat_digit argIndex hd, numeralFrom_cons]
      refine congrArg some (UInt64.toNat_inj.mp ?_)
      rw [UInt64.toNat_ofNat', UInt64.toNat_ofNat']
      exact numeralFrom_mod _ _ ds

/-- Anything else in an index is not read. -/
theorem readIndex_none (argIndex : UInt64) (h : ¬ ∀ d ∈ ds, isDigit d = true) :
    readIndex ds argIndex = none := by
  induction ds generalizing argIndex with
  | nil => exact (h fun d hd => nomatch hd).elim
  | cons d ds ih =>
      cases hd : isDigit d with
      | true =>
          rw [readIndex_cons argIndex hd]
          exact ih _ fun hall => h (List.forall_mem_cons.mpr ⟨hd, hall⟩)
      | false =>
          rw [Bool.eq_false_iff, ne_eq, isDigit_iff] at hd
          refine if_pos ?_
          rw [gt_iff_lt, UInt8.lt_iff_toNat_lt, UInt8.lt_iff_toNat_lt]
          show d.toNat < 48 ∨ 57 < d.toNat
          omega

/-- An index of so many digits is that of an argument when its value modulo `2 ^ 64` is. -/
theorem ofNat_ge_iff (n : ℕ) : UInt64.ofNat n ≥ argc ↔ ¬ n % 2 ^ 64 < argc.toNat := by
  rw [ge_iff_le, UInt64.le_iff_toNat_le, UInt64.toNat_ofNat', Nat.not_lt]

/-! ## Steps of the scanner -/

theorem scan_ok (h : step argc argv str c (fmt + 1) s = .ok s') :
    scan argc argv str (c :: rest) fmt s = scan argc argv str rest (fmt + 1) s' := by
  unfold scan
  rw [h]
  cases rest <;> rfl

theorem scan_error {res : Outcome} (h : step argc argv str c (fmt + 1) s = .error res) :
    scan argc argv str (c :: rest) fmt s = res := by
  unfold scan
  rw [h]

/-- Characters that change nothing. -/
theorem scan_skip (h : ∀ d ∈ ds, ∀ fmt, step argc argv str d fmt s = .ok s) :
    scan argc argv str (ds ++ rest) fmt s = scan argc argv str rest (fmt + ds.length) s := by
  induction ds generalizing fmt with
  | nil => rfl
  | cons d ds ih =>
      rw [List.cons_append, scan_ok (h d List.mem_cons_self _),
        ih fun d hd => h d (List.mem_cons_of_mem _ hd), List.length_cons, Nat.add_assoc,
        Nat.add_comm 1]

theorem step_index (hstate : s.state = .readingIndex) (h : c ≠ 123 ∧ c ≠ 58 ∧ c ≠ 125) (fmt : ℕ) :
    step argc argv str c fmt s = .ok s := by
  unfold step
  rw [hstate]
  dsimp only
  rw [if_neg h.1, if_neg fun hc => hc.elim h.2.1 h.2.2]

theorem step_text (hstate : s.state = .readingFormat) (h : c ≠ 123 ∧ c ≠ 125) (fmt : ℕ) :
    step argc argv str c fmt s = .ok s := by
  unfold step
  rw [hstate]
  dsimp only
  rw [if_neg h.2, if_neg h.1]

theorem step_close (hstate : s.state = .readingIndex) (h : c = 58 ∨ c = 125) (fmt : ℕ) :
    step argc argv str c fmt s = closeIndex argc argv str c fmt s := by
  have hc : c ≠ 123 := by
    rintro rfl
    exact absurd h (by decide)
  unfold step
  rw [hstate]
  dsimp only
  rw [if_neg hc, if_pos h]

/-- Outside of items: all that was written or is to be written by now. -/
structure Settled (str : Pointer) (pos : ℕ) (s : Scan) (t : List UInt8) : Prop where
  state : s.state = .outOfFormat
  start : ∀ n ∈ s.nakedStart, n ≤ pos
  output : flushed str pos s = t

/-- The scanner behind a brace. -/
def opened (str : Pointer) (pos : ℕ) (s : Scan) : Scan :=
  { s with
    output := flushed str pos s, nakedStart := none, state := .readingIndex
    indexStart := pos + 1, argIndex := 0 }

theorem scan_nil (hs : Settled str fmt s t) :
    scan argc argv str [] fmt s = .returned .okay t := by
  unfold scan
  rw [if_neg (not_not_intro hs.state), hs.output]

theorem scan_open (hs : Settled str fmt s t) :
    scan argc argv str (123 :: rest) fmt s =
      scan argc argv str rest (fmt + 1) (opened str fmt s) := by
  refine scan_ok ?_
  unfold step
  rw [hs.state]
  rfl

theorem scan_literal (hs : Settled str done.length s t) (hstr : str = done ++ c :: ds)
    (hc : c ≠ 123) :
    ∃ s', scan argc argv str (c :: rest) done.length s =
        scan argc argv str rest (done.length + 1) s' ∧
      Settled str (done.length + 1) s' (t ++ [c]) := by
  have hget : str[done.length]? = some c := hstr ▸ getElem?_append_cons
  have hout := hs.output
  unfold flushed at hout
  cases hnaked : s.nakedStart with
  | none =>
      rw [hnaked] at hout
      refine ⟨{ s with nakedStart := some done.length }, scan_ok ?_, hs.state, ?_, ?_⟩
      · unfold step
        rw [hs.state]
        dsimp only
        rw [if_neg hc, if_pos hnaked]
        rfl
      · rintro n hn
        rw [← Option.some.inj hn]
        exact Nat.le_succ _
      · show s.output ++ between str done.length (done.length + 1) = t ++ [c]
        rw [between_succ (Nat.le_refl _) hget, between_self, List.nil_append]
        exact congrArg (· ++ [c]) hout
  | some start =>
      rw [hnaked] at hout
      have hle := hs.start start hnaked
      refine ⟨s, scan_ok ?_, hs.state, ?_, ?_⟩
      · unfold step
        rw [hs.state]
        dsimp only
        rw [if_neg hc, if_neg (by rw [hnaked]; exact Option.some_ne_none start)]
      · intro n hn
        exact Nat.le_succ_of_le (hs.start n hn)
      · unfold flushed
        rw [hnaked]
        show s.output ++ between str start (done.length + 1) = t ++ [c]
        rw [between_succ hle hget, ← List.append_assoc]
        exact congrArg (· ++ [c]) hout

theorem scan_brace (hs : Settled str fmt s t) :
    ∃ s', scan argc argv str (123 :: 123 :: rest) fmt s = scan argc argv str rest (fmt + 2) s' ∧
      Settled str (fmt + 2) s' (t ++ [123]) := by
  refine ⟨{ opened str fmt s with output := t ++ [123], state := .outOfFormat }, ?_,
    rfl, (fun n hn => nomatch hn), rfl⟩
  rw [scan_open hs]
  refine scan_ok ?_
  show (if fmt + 1 = fmt + 1 + 1 - 1 then _ else _) = _
  rw [if_pos (show fmt + 1 = fmt + 1 + 1 - 1 from rfl), ← hs.output]
  rfl

/-- The index of an item is read to its end. -/
theorem scan_index (hs : Settled str fmt s t) (hds : ∀ d ∈ ds, d ≠ 123 ∧ d ≠ 58 ∧ d ≠ 125) :
    scan argc argv str (123 :: (ds ++ rest)) fmt s =
      scan argc argv str rest (fmt + 1 + ds.length) (opened str fmt s) := by
  rw [scan_open hs]
  exact scan_skip fun d hd => step_index rfl (hds d hd)

/-! ## Items -/

/-- An index that is taken for that of an argument. -/
def Indexes (argc : UInt64) (ds : List UInt8) : Prop :=
  ds ≠ [] ∧ (∀ d ∈ ds, isDigit d = true) ∧ numeral ds % 2 ^ 64 < argc.toNat

theorem index_ne (hne : ds ≠ []) :
    (opened str done.length s).indexStart ≠ done.length + 1 + ds.length + 1 - 1 := by
  have hlen := List.length_pos_iff.mpr hne
  show done.length + 1 ≠ done.length + 1 + ds.length + 1 - 1
  omega

theorem index_between {mem : List UInt8} (hstr : str = done ++ 123 :: (ds ++ mem)) :
    between str (opened str done.length s).indexStart (done.length + 1 + ds.length + 1 - 1) = ds := by
  have h := between_append (done ++ [123]) ds mem
  rw [List.append_assoc, List.length_append] at h
  exact hstr ▸ h

theorem closeIndex_bad {mem : List UInt8} (hstr : str = done ++ 123 :: (ds ++ mem))
    (h : ¬ Indexes argc ds) (c : UInt8) :
    closeIndex argc argv str c (done.length + 1 + ds.length + 1) (opened str done.length s) =
      badSpecifier (opened str done.length s) := by
  unfold closeIndex
  by_cases hne : ds = []
  · rw [hne]
    exact if_pos rfl
  · rw [if_neg (index_ne hne), index_between hstr]
    show (match readIndex ds 0 with
      | none => _
      | some argIndex => _) = _
    by_cases hds : ∀ d ∈ ds, isDigit d = true
    · rw [readIndex_digits hds]
      refine if_pos ((ofNat_ge_iff _).mpr fun hlt => h ⟨hne, hds, hlt⟩)
    · rw [readIndex_none 0 hds]

theorem closeIndex_good {mem : List UInt8} (hstr : str = done ++ 123 :: (ds ++ mem))
    (h : Indexes argc ds) (c : UInt8) :
    closeIndex argc argv str c (done.length + 1 + ds.length + 1) (opened str done.length s) =
      if c = 58 then
        .ok { opened str done.length s with
          argIndex := UInt64.ofNat (numeral ds), formatStart := done.length + 1 + ds.length + 1
          state := .readingFormat }
      else
        .ok { opened str done.length s with
          argIndex := UInt64.ofNat (numeral ds), state := .outOfFormat
          output := flushed str done.length s ++
            (argv (UInt64.ofNat (numeral ds))).write none } := by
  unfold closeIndex
  rw [if_neg (index_ne h.1), index_between hstr]
  show (match readIndex ds 0 with
    | none => _
    | some argIndex => _) = _
  rw [readIndex_digits h.2.1]
  exact if_neg ((ofNat_ge_iff _).not.mpr (not_not_intro h.2.2))

theorem digit_inside (h : isDigit c = true) : c ≠ 123 ∧ c ≠ 58 ∧ c ≠ 125 := by
  rw [isDigit_iff] at h
  refine ⟨?_, ?_, ?_⟩ <;> rintro rfl <;> exact absurd h (by decide)

/-- `{N}`. -/
theorem scan_item (hs : Settled str done.length s t) {mem : List UInt8}
    (hstr : str = done ++ 123 :: (ds ++ 125 :: mem)) (h : Indexes argc ds) :
    ∃ s', scan argc argv str (123 :: (ds ++ 125 :: rest)) done.length s =
        scan argc argv str rest (done.length + 1 + ds.length + 1) s' ∧
      Settled str (done.length + 1 + ds.length + 1) s'
        (t ++ (argv (UInt64.ofNat (numeral ds))).write none) := by
  refine ⟨{ opened str done.length s with
      argIndex := UInt64.ofNat (numeral ds), state := .outOfFormat
      output := t ++ (argv (UInt64.ofNat (numeral ds))).write none },
    ?_, rfl, (fun n hn => nomatch hn), rfl⟩
  rw [scan_index hs fun d hd => digit_inside (h.2.1 d hd)]
  refine scan_ok ?_
  rw [step_close rfl (.inr rfl), closeIndex_good hstr h, hs.output]
  exact if_neg (by decide)

/-- Behind `{N:`. -/
def texted (str : Pointer) (pos : ℕ) (ds : List UInt8) (s : Scan) : Scan :=
  { opened str pos s with
    argIndex := UInt64.ofNat (numeral ds), formatStart := pos + 1 + ds.length + 1
    state := .readingFormat }

theorem scan_format (hs : Settled str done.length s t) {mem text : List UInt8}
    (hstr : str = done ++ 123 :: (ds ++ 58 :: mem)) (h : Indexes argc ds)
    (htext : ∀ d ∈ text, d ≠ 123 ∧ d ≠ 125) :
    scan argc argv str (123 :: (ds ++ 58 :: (text ++ rest))) done.length s =
      scan argc argv str rest (done.length + 1 + ds.length + 1 + text.length)
        (texted str done.length ds s) := by
  rw [scan_index hs fun d hd => digit_inside (h.2.1 d hd)]
  have hstep : step argc argv str 58 (done.length + 1 + ds.length + 1)
      (opened str done.length s) = .ok (texted str done.length ds s) := by
    rw [step_close rfl (.inl rfl), closeIndex_good hstr h]
    exact if_pos rfl
  rw [scan_ok hstep]
  exact scan_skip fun d hd => step_text rfl (htext d hd)

theorem stringIn_append (ht : 0 ∉ t) : stringIn (t ++ 0 :: rest) = t := by
  induction t with
  | nil => rfl
  | cons c t ih =>
      have hc : c ≠ 0 := fun h => ht (h ▸ List.mem_cons_self)
      unfold stringIn at ih ⊢
      rw [List.cons_append, List.takeWhile_cons, ih fun h => ht (List.mem_cons_of_mem _ h)]
      simp only [ne_eq, hc, not_false_eq_true, decide_true, if_true]

/-- Behind the brace and the index. -/
theorem format_eq {mem : List UInt8} (hstr : str = done ++ 123 :: (ds ++ 58 :: mem)) :
    str.drop (done.length + 1 + ds.length + 1) = mem := by
  have hlen : done.length + 1 + ds.length + 1 = (done ++ 123 :: (ds ++ [58])).length := by
    rw [List.length_append, List.length_cons, List.length_append, List.length_singleton]
    omega
  have hsplit : str = (done ++ 123 :: (ds ++ [58])) ++ mem := by
    rw [hstr, List.append_assoc, List.cons_append, List.append_assoc, List.singleton_append]
  rw [hsplit, hlen, List.drop_left]

/-- `{N:text}`. -/
theorem scan_textItem (hs : Settled str done.length s t) {mem text : List UInt8}
    (hstr : str = done ++ 123 :: (ds ++ 58 :: (text ++ 125 :: mem))) (h : Indexes argc ds)
    (htext : 123 ∉ text ∧ 125 ∉ text) (hzero : 0 ∉ text) (hne : text ≠ []) :
    ∃ s', scan argc argv str (123 :: (ds ++ 58 :: (text ++ 125 :: rest))) done.length s =
        scan argc argv str rest (done.length + 1 + ds.length + 1 + text.length + 1) s' ∧
      Settled str (done.length + 1 + ds.length + 1 + text.length + 1) s'
        (t ++ (argv (UInt64.ofNat (numeral ds))).write (some text)) := by
  refine ⟨{ texted str done.length ds s with
      state := .outOfFormat
      output := t ++ (argv (UInt64.ofNat (numeral ds))).write (some text) },
    ?_, rfl, (fun n hn => nomatch hn), rfl⟩
  have hinside : ∀ d ∈ text, d ≠ 123 ∧ d ≠ 125 := fun d hd =>
    ⟨fun heq => htext.1 (heq ▸ hd), fun heq => htext.2 (heq ▸ hd)⟩
  rw [scan_format hs hstr h hinside]
  refine scan_ok ?_
  show closeFormat argv str _ _ = _
  have hsize : done.length + 1 + ds.length + 1 + text.length + 1 -
      (done.length + 1 + ds.length + 1) = text.length + 1 := by omega
  have hbuf : formatBuf str (done.length + 1 + ds.length + 1)
      (done.length + 1 + ds.length + 1 + text.length + 1) = some (text ++ [0]) := by
    unfold formatBuf
    rw [hsize, format_eq hstr, Nat.add_sub_cancel, strncpy_append hzero hne]
    dsimp only
    rw [if_pos (Nat.le_succ _), Nat.add_sub_cancel_left]
    rfl
  unfold closeFormat
  show (match formatBuf str (done.length + 1 + ds.length + 1) _ with
    | none => _
    | some buf => _) = _
  rw [hbuf]
  dsimp only
  rw [stringIn_append hzero, ← hs.output]
  rfl

/-- `{N:}`: the copy has no bound, and runs over the end of a buffer of one byte. -/
theorem scan_emptyText (hs : Settled str done.length s t) {mem : List UInt8}
    (hstr : str = done ++ 123 :: (ds ++ 58 :: 125 :: (mem ++ [0]))) (h : Indexes argc ds) :
    scan argc argv str (123 :: (ds ++ 58 :: 125 :: rest)) done.length s = .overrun := by
  have hscan := @scan_format _ _ argv _ _ (125 :: rest) _ _ _ hs _ [] hstr h
    fun d hd => nomatch hd
  rw [List.nil_append, List.length_nil] at hscan
  rw [hscan]
  refine scan_error ?_
  show closeFormat argv str _ _ = _
  obtain ⟨stored, hstored, hlong⟩ := @strncpy_zero [] 125 (by decide) mem
  have hsize : done.length + 1 + ds.length + 1 + 0 + 1 - (done.length + 1 + ds.length + 1) = 1 := by
    omega
  have hbuf : formatBuf str (done.length + 1 + ds.length + 1)
      (done.length + 1 + ds.length + 1 + 0 + 1) = none := by
    unfold formatBuf
    rw [hsize, format_eq hstr, Nat.sub_self, ← List.cons_append, hstored]
    exact if_neg (Nat.not_le_of_gt hlong)
  unfold closeFormat
  show (match formatBuf str (done.length + 1 + ds.length + 1) _ with
    | none => _
    | some buf => _) = _
  rw [hbuf]

/-! ## What does not begin with an item -/

/-- A brace after which no item that can be taken follows. -/
inductive Broken (argc : UInt64) : List UInt8 → Prop where
  | unclosed (ds : List UInt8) : (∀ d ∈ ds, d ≠ 123 ∧ d ≠ 58 ∧ d ≠ 125) → Broken argc (123 :: ds)
  | inner (ds rest : List UInt8) : (∀ d ∈ ds, d ≠ 123 ∧ d ≠ 58 ∧ d ≠ 125) → ds ≠ [] →
      Broken argc (123 :: (ds ++ 123 :: rest))
  | index (ds : List UInt8) (c : UInt8) (rest : List UInt8) :
      (∀ d ∈ ds, d ≠ 123 ∧ d ≠ 58 ∧ d ≠ 125) → c = 58 ∨ c = 125 → ¬ Indexes argc ds →
      Broken argc (123 :: (ds ++ c :: rest))
  | unclosedText (ds text : List UInt8) : Indexes argc ds → (∀ d ∈ text, d ≠ 123 ∧ d ≠ 125) →
      Broken argc (123 :: (ds ++ 58 :: text))
  | innerText (ds text rest : List UInt8) : Indexes argc ds →
      (∀ d ∈ text, d ≠ 123 ∧ d ≠ 125) → Broken argc (123 :: (ds ++ 58 :: (text ++ 123 :: rest)))

theorem scan_broken {cs : List UInt8} (hs : Settled str done.length s t)
    (hstr : str = done ++ (cs ++ [0])) (h : Broken argc cs) :
    ∃ output, scan argc argv str cs done.length s = .returned .formatBadSpecifier output := by
  cases h with
  | unclosed ds hds =>
      have hscan := @scan_index _ argc argv _ _ _ [] _ _ hs hds
      rw [List.append_nil] at hscan
      rw [hscan]
      exact ⟨_, if_pos (show State.readingIndex ≠ .outOfFormat by decide)⟩
  | inner ds rest hds hne =>
      rw [scan_index hs hds]
      refine ⟨(opened str done.length s).output, scan_error ?_⟩
      exact if_neg (index_ne hne)
  | index ds c rest hds hc hbad =>
      rw [List.cons_append, List.append_assoc] at hstr
      rw [scan_index hs hds]
      refine ⟨(opened str done.length s).output, scan_error ?_⟩
      rw [step_close rfl hc, closeIndex_bad hstr hbad]
      rfl
  | unclosedText ds text hds htext =>
      rw [List.cons_append, List.append_assoc] at hstr
      have hscan := @scan_format _ _ argv _ _ [] _ _ _ hs _ _ hstr hds htext
      rw [List.append_nil] at hscan
      rw [hscan]
      exact ⟨_, if_pos (show State.readingFormat ≠ .outOfFormat by decide)⟩
  | innerText ds text rest hds htext =>
      rw [List.cons_append, List.append_assoc] at hstr
      rw [scan_format hs hstr hds htext]
      exact ⟨_, scan_error rfl⟩

/-- What a string begins with up to the first character that is not of a kind. -/
theorem exists_span (kind : UInt8 → Bool) (cs : List UInt8) :
    ∃ ds rest, cs = ds ++ rest ∧ (∀ d ∈ ds, kind d = true) ∧
      (rest = [] ∨ ∃ c rest', rest = c :: rest' ∧ kind c = false) := by
  induction cs with
  | nil => exact ⟨[], [], rfl, (fun d hd => nomatch hd), .inl rfl⟩
  | cons c cs ih =>
      cases hc : kind c with
      | false => exact ⟨[], c :: cs, rfl, (fun d hd => nomatch hd), .inr ⟨c, cs, rfl, hc⟩⟩
      | true =>
          obtain ⟨ds, rest, rfl, hds, hrest⟩ := ih
          exact ⟨c :: ds, rest, rfl, List.forall_mem_cons.mpr ⟨hc, hds⟩, hrest⟩

/-- What a string can begin with. -/
inductive Head (argc : UInt64) : List UInt8 → Prop where
  | nil : Head argc []
  | taken (p : Piece) (rest : List UInt8) : Taken argc p → Head argc (p.spell ++ rest)
  | emptyText (p : Piece) (rest : List UInt8) : p.WellFormed → p.WrapsInRange argc → p.EmptyText →
      Head argc (p.spell ++ rest)
  | broken (cs : List UInt8) : Broken argc cs → Head argc cs

theorem item_append (ds l : List UInt8) :
    (Piece.item ds none).spell ++ l = 123 :: (ds ++ 125 :: l) := by
  show (123 :: (ds ++ [125])) ++ l = _
  rw [List.cons_append, List.append_assoc, List.singleton_append]

theorem textItem_append (ds text l : List UInt8) :
    (Piece.item ds (some text)).spell ++ l = 123 :: (ds ++ 58 :: (text ++ 125 :: l)) := by
  show (123 :: (ds ++ 58 :: (text ++ [125]))) ++ l = _
  rw [List.cons_append, List.append_assoc, List.cons_append, List.append_assoc,
    List.singleton_append]

/-- What follows an index that can be taken. -/
theorem head_text (hds : Indexes argc ds) (cs : List UInt8) :
    Head argc (123 :: (ds ++ 58 :: cs)) := by
  obtain ⟨text, rest, rfl, htext, hrest⟩ :=
    exists_span (fun c => decide (c ≠ 123) && decide (c ≠ 125)) cs
  have hinside : ∀ d ∈ text, d ≠ 123 ∧ d ≠ 125 := by
    intro d hd
    have h := htext d hd
    rwa [Bool.and_eq_true, decide_eq_true_iff, decide_eq_true_iff] at h
  rcases hrest with rfl | ⟨c, rest, rfl, hc⟩
  · rw [List.append_nil]
    exact .broken _ (.unclosedText ds text hds hinside)
  · rw [Bool.and_eq_false_iff, decide_eq_false_iff_not, decide_eq_false_iff_not, not_not,
      not_not] at hc
    rcases hc with rfl | rfl
    · exact .broken _ (.innerText ds text rest hds hinside)
    · have hwell : (Piece.item ds (some text)).WellFormed :=
        ⟨hds.1, hds.2.1, fun t ht => by
          rw [← Option.some.inj ht]
          exact ⟨fun h => (hinside 123 h).1 rfl, fun h => (hinside 125 h).2 rfl⟩⟩
      rw [← textItem_append]
      cases text with
      | nil => exact .emptyText _ _ hwell hds.2.2 trivial
      | cons d text => exact .taken _ _ ⟨hwell, hds.2.2, id⟩

theorem head_cases (argc : UInt64) (cs : List UInt8) : Head argc cs := by
  cases cs with
  | nil => exact .nil
  | cons c cs =>
      by_cases hc : c = 123
      · subst hc
        obtain ⟨ds, rest, rfl, hds, hrest⟩ :=
          exists_span (fun c => decide (c ≠ 123) && (decide (c ≠ 58) && decide (c ≠ 125))) cs
        have hinside : ∀ d ∈ ds, d ≠ 123 ∧ d ≠ 58 ∧ d ≠ 125 := by
          intro d hd
          have h := hds d hd
          rwa [Bool.and_eq_true, Bool.and_eq_true, decide_eq_true_iff, decide_eq_true_iff,
            decide_eq_true_iff] at h
        rcases hrest with rfl | ⟨c, rest, rfl, hc⟩
        · rw [List.append_nil]
          exact .broken _ (.unclosed ds hinside)
        · rw [Bool.and_eq_false_iff, Bool.and_eq_false_iff, decide_eq_false_iff_not,
            decide_eq_false_iff_not, decide_eq_false_iff_not, not_not, not_not, not_not] at hc
          rcases hc with rfl | hc
          · cases ds with
            | nil => exact .taken .brace rest ⟨trivial, trivial, id⟩
            | cons d ds => exact .broken _ (.inner _ _ hinside (List.cons_ne_nil d ds))
          · by_cases hindex : Indexes argc ds
            · rcases hc with rfl | rfl
              · exact head_text hindex rest
              · rw [← item_append]
                exact .taken _ _
                  ⟨⟨hindex.1, hindex.2.1, fun t ht => nomatch ht⟩, hindex.2.2, id⟩
            · exact .broken _ (.index ds c rest hinside hc hindex)
      · exact .taken (.literal c) cs ⟨hc, trivial, id⟩

/-! ## Whole strings -/

theorem scan_piece {p : Piece} (hp : Taken argc p) (hs : Settled str done.length s t)
    (hstr : str = done ++ (p.spell ++ (rest ++ [0]))) (hzero : 0 ∉ p.spell) :
    ∃ s', scan argc argv str (p.spell ++ rest) done.length s =
        scan argc argv str rest (done ++ p.spell).length s' ∧
      Settled str (done ++ p.spell).length s' (t ++ p.prints argv) := by
  obtain ⟨hwell, hrange, hempty⟩ := hp
  rw [List.length_append]
  cases p with
  | literal c => exact scan_literal hs hstr hwell
  | brace => exact scan_brace hs
  | item ds text =>
      have hds : Indexes argc ds := ⟨hwell.1, hwell.2.1, hrange⟩
      cases text with
      | none =>
          have hlen : done.length + (Piece.item ds none).spell.length =
              done.length + 1 + ds.length + 1 := by
            show done.length + (123 :: (ds ++ [125])).length = _
            rw [List.length_cons, List.length_append, List.length_singleton]
            omega
          rw [item_append] at hstr
          rw [item_append, hlen]
          exact scan_item hs hstr hds
      | some text =>
          have hlen : done.length + (Piece.item ds (some text)).spell.length =
              done.length + 1 + ds.length + 1 + text.length + 1 := by
            show done.length + (123 :: (ds ++ 58 :: (text ++ [125]))).length = _
            rw [List.length_cons, List.length_append, List.length_cons, List.length_append,
              List.length_singleton]
            omega
          rw [textItem_append] at hstr
          rw [textItem_append, hlen]
          refine scan_textItem hs hstr hds (hwell.2.2 text rfl) ?_ ?_
          · intro hmem
            refine hzero (List.mem_cons_of_mem _ (List.mem_append_right _ ?_))
            exact List.mem_cons_of_mem _ (List.mem_append_left _ hmem)
          · rintro rfl
            exact hempty trivial

theorem spell_ne_nil (p : Piece) : p.spell ≠ [] := by
  cases p with
  | literal c => exact List.cons_ne_nil _ _
  | brace => exact List.cons_ne_nil _ _
  | item ds text => cases text <;> exact List.cons_ne_nil _ _

theorem spell_cons (p : Piece) (ps : List Piece) : spell (p :: ps) = p.spell ++ spell ps := by
  unfold spell
  rw [List.flatMap_cons]

theorem prints_cons (p : Piece) (ps : List Piece) :
    prints argv (p :: ps) = p.prints argv ++ prints argv ps := by
  unfold prints
  rw [List.flatMap_cons]

theorem scan_pieces {ps : List Piece} (hps : ∀ p ∈ ps, Taken argc p)
    (hs : Settled str done.length s t) (hstr : str = done ++ (spell ps ++ (rest ++ [0])))
    (hzero : 0 ∉ spell ps) :
    ∃ s', scan argc argv str (spell ps ++ rest) done.length s =
        scan argc argv str rest (done ++ spell ps).length s' ∧
      Settled str (done ++ spell ps).length s' (t ++ prints argv ps) := by
  induction ps generalizing done s t with
  | nil =>
      refine ⟨s, ?_, ?_⟩
      · show scan argc argv str rest done.length s = scan argc argv str rest (done ++ []).length s
        rw [List.append_nil]
      · show Settled str (done ++ []).length s (t ++ [])
        rwa [List.append_nil, List.append_nil]
  | cons p ps ih =>
      rw [spell_cons] at hzero hstr ⊢
      rw [List.mem_append, not_or] at hzero
      rw [List.append_assoc] at hstr
      obtain ⟨s₁, hscan₁, hs₁⟩ := @scan_piece _ _ argv _ _ (spell ps ++ rest) _ _ _
        (hps p List.mem_cons_self) hs (by rw [hstr, List.append_assoc]) hzero.1
      obtain ⟨s₂, hscan₂, hs₂⟩ := ih (fun q hq => hps q (List.mem_cons_of_mem _ hq)) hs₁
        (by rw [hstr, List.append_assoc]) hzero.2
      refine ⟨s₂, ?_, ?_⟩
      · rw [List.append_assoc, hscan₁, hscan₂, List.append_assoc]
      · rwa [prints_cons, ← List.append_assoc, ← List.append_assoc]

theorem settled_start (str : Pointer) : Settled str 0 start [] :=
  ⟨rfl, (fun _ hn => nomatch hn), rfl⟩

/-- A string of pieces that are all taken is printed. -/
theorem write_taken {fmt : CString} {ps : List Piece} (hps : ∀ p ∈ ps, Taken argc p)
    (hfmt : fmt.chars = spell ps) : write fmt argc argv = .returned .okay (prints argv ps) := by
  have hzero : 0 ∉ spell ps := hfmt ▸ fmt.nonzero
  obtain ⟨s', hscan, hs'⟩ := @scan_pieces _ _ argv _ _ [] [] _ _ hps
    (settled_start fmt.bytes) (by rw [← hfmt]; rfl) hzero
  rw [List.append_nil] at hscan
  unfold write
  rw [hfmt]
  exact hscan.trans (scan_nil hs')

/-- A string of such pieces before an empty format text makes the copy run over. -/
theorem write_emptyText {fmt : CString} {ps : List Piece} {p : Piece}
    (hps : ∀ q ∈ ps, Taken argc q) (hwell : p.WellFormed) (hrange : p.WrapsInRange argc)
    (hempty : p.EmptyText) (hfmt : fmt.chars = spell ps ++ (p.spell ++ rest)) :
    write fmt argc argv = .overrun := by
  have hzero : 0 ∉ spell ps := fun h => fmt.nonzero (hfmt ▸ List.mem_append_left _ h)
  have hstr : fmt.bytes = spell ps ++ (p.spell ++ rest ++ [0]) := by
    show fmt.chars ++ [0] = _
    rw [hfmt, List.append_assoc]
  obtain ⟨s', hscan, hs'⟩ := @scan_pieces _ _ argv _ _ _ [] _ _ hps
    (settled_start fmt.bytes) hstr hzero
  unfold write
  rw [hfmt]
  refine hscan.trans ?_
  cases p with
  | literal c => exact hempty.elim
  | brace => exact hempty.elim
  | item ds text =>
      cases text with
      | none => exact hempty.elim
      | some text =>
          cases text with
          | cons d text => exact hempty.elim
          | nil =>
              rw [List.append_assoc, textItem_append] at hstr
              rw [textItem_append]
              exact scan_emptyText hs' hstr ⟨hwell.1, hwell.2.1, hrange⟩

/-- Every string ends in one of three ways. -/
theorem scan_cases {cs : List UInt8} (hs : Settled str done.length s t)
    (hstr : str = done ++ (cs ++ [0])) (hzero : 0 ∉ cs) :
    (∃ ps, (∀ p ∈ ps, Taken argc p) ∧ cs = spell ps) ∨
    (∃ ps p rest, (∀ q ∈ ps, Taken argc q) ∧ Piece.WellFormed p ∧ p.WrapsInRange argc ∧
      p.EmptyText ∧ cs = spell ps ++ (p.spell ++ rest)) ∨
    ∃ output, scan argc argv str cs done.length s = .returned .formatBadSpecifier output := by
  induction hn : cs.length using Nat.strongRecOn generalizing cs done s t with
  | ind n ih =>
      cases head_cases argc cs with
      | nil => exact .inl ⟨[], (fun p hp => nomatch hp), rfl⟩
      | emptyText p rest hwell hrange hempty =>
          exact .inr (.inl ⟨[], p, rest, (fun q hq => nomatch hq), hwell, hrange, hempty, rfl⟩)
      | broken cs hbroken => exact .inr (.inr (scan_broken hs hstr hbroken))
      | taken p rest hp =>
          rw [List.mem_append, not_or] at hzero
          rw [List.append_assoc] at hstr
          obtain ⟨s₁, hscan, hs₁⟩ := @scan_piece _ _ argv _ _ _ _ _ _ hp hs hstr hzero.1
          have hlt : rest.length < n := by
            rw [← hn, List.length_append]
            exact Nat.lt_add_of_pos_left (List.length_pos_iff.mpr (spell_ne_nil p))
          rw [hscan]
          rcases ih rest.length hlt hs₁ (by rw [hstr, List.append_assoc]) hzero.2 rfl with
            ⟨ps, hps, rfl⟩ | ⟨ps, q, rest, hps, hwell, hrange, hempty, rfl⟩ | hbad
          · exact .inl ⟨p :: ps, List.forall_mem_cons.mpr ⟨hp, hps⟩, (spell_cons p ps).symm⟩
          · refine .inr (.inl ⟨p :: ps, q, rest, List.forall_mem_cons.mpr ⟨hp, hps⟩, hwell, hrange,
              hempty, ?_⟩)
            rw [spell_cons, List.append_assoc]
          · exact .inr (.inr hbad)

/-! ## A string has one reading -/

theorem span_unique {kind : UInt8 → Bool} {es rest' : List UInt8} {d : UInt8}
    (hds : ∀ x ∈ ds, kind x = true) (hes : ∀ x ∈ es, kind x = true) (hc : kind c = false)
    (hd : kind d = false) (h : ds ++ c :: rest = es ++ d :: rest') :
    ds = es ∧ c = d ∧ rest = rest' := by
  induction ds generalizing es with
  | nil =>
      cases es with
      | nil => exact ⟨rfl, (List.cons.inj h).1, (List.cons.inj h).2⟩
      | cons e es =>
          have he := hes e List.mem_cons_self
          rw [← (List.cons.inj h).1, hc] at he
          exact absurd he Bool.false_ne_true
  | cons x ds ih =>
      cases es with
      | nil =>
          have hx := hds x List.mem_cons_self
          rw [(List.cons.inj h).1, hd] at hx
          exact absurd hx Bool.false_ne_true
      | cons e es =>
          obtain ⟨rfl, htail⟩ := List.cons.inj h
          obtain ⟨rfl, hrest⟩ := ih (fun y hy => hds y (List.mem_cons_of_mem _ hy))
            (fun y hy => hes y (List.mem_cons_of_mem _ hy)) htail
          exact ⟨rfl, hrest⟩

/-- The digit that the index of an item begins with. -/
theorem index_head {text : Option (List UInt8)} (h : (Piece.item ds text).WellFormed) :
    ∃ d rest', (Piece.item ds text).spell ++ rest = 123 :: d :: rest' ∧ d ≠ 123 := by
  obtain ⟨hne, hds, -⟩ := h
  cases ds with
  | nil => exact (hne rfl).elim
  | cons d ds =>
      have hd := (digit_inside (hds d List.mem_cons_self)).1
      cases text with
      | none => exact ⟨d, ds ++ 125 :: rest, item_append _ _, hd⟩
      | some text => exact ⟨d, ds ++ 58 :: (text ++ 125 :: rest), textItem_append _ _ _, hd⟩

theorem item_unique {es rest' : List UInt8} {text text' : Option (List UInt8)}
    (hp : (Piece.item ds text).WellFormed) (hq : (Piece.item es text').WellFormed)
    (h : (Piece.item ds text).spell ++ rest = (Piece.item es text').spell ++ rest') :
    Piece.item ds text = Piece.item es text' := by
  have hcolon : isDigit 58 = false := by decide
  have hbrace : isDigit 125 = false := by decide
  have hkind {t : List UInt8} (ht : 125 ∉ t) : ∀ d ∈ t, (d != 125) = true := by
    intro d hd
    rw [bne_iff_ne]
    rintro rfl
    exact ht hd
  cases text with
  | none =>
      cases text' with
      | none =>
          rw [item_append, item_append] at h
          rw [(span_unique hp.2.1 hq.2.1 hbrace hbrace (List.cons.inj h).2).1]
      | some text' =>
          rw [item_append, textItem_append] at h
          exact absurd (span_unique hp.2.1 hq.2.1 hbrace hcolon (List.cons.inj h).2).2.1 (by decide)
  | some text =>
      cases text' with
      | none =>
          rw [item_append, textItem_append] at h
          exact absurd (span_unique hp.2.1 hq.2.1 hcolon hbrace (List.cons.inj h).2).2.1 (by decide)
      | some text' =>
          rw [textItem_append, textItem_append] at h
          obtain ⟨rfl, -, htail⟩ := span_unique hp.2.1 hq.2.1 hcolon hcolon (List.cons.inj h).2
          obtain ⟨rfl, -, -⟩ := @span_unique _ _ _ (· != 125) _ _ _ (hkind (hp.2.2 text rfl).2)
            (hkind (hq.2.2 text' rfl).2) rfl rfl htail
          rfl

theorem piece_unique {p q : Piece} {rest' : List UInt8} (hp : p.WellFormed) (hq : q.WellFormed)
    (h : p.spell ++ rest = q.spell ++ rest') : p = q := by
  cases p with
  | literal c =>
      cases q with
      | literal d => rw [(List.cons.inj h).1]
      | brace => exact absurd (List.cons.inj h).1 hp
      | item es text' =>
          obtain ⟨d, tail, heq, -⟩ := @index_head rest' _ _ hq
          exact absurd (List.cons.inj (h.trans heq)).1 hp
  | brace =>
      cases q with
      | literal d => exact absurd (List.cons.inj h).1.symm hq
      | brace => rfl
      | item es text' =>
          obtain ⟨d, tail, heq, hd⟩ := @index_head rest' _ _ hq
          exact absurd (List.cons.inj (List.cons.inj (h.trans heq)).2).1.symm hd
  | item ds text =>
      cases q with
      | literal d =>
          obtain ⟨c, tail, heq, -⟩ := @index_head rest _ _ hp
          exact absurd (List.cons.inj (heq.symm.trans h)).1.symm hq
      | brace =>
          obtain ⟨d, tail, heq, hd⟩ := @index_head rest _ _ hp
          exact absurd (List.cons.inj (List.cons.inj (heq.symm.trans h)).2).1 hd
      | item es text' => exact item_unique hp hq h

theorem spell_inj {ps qs : List Piece} (hps : ∀ p ∈ ps, p.WellFormed)
    (hqs : ∀ q ∈ qs, q.WellFormed) (h : spell ps = spell qs) : ps = qs := by
  induction ps generalizing qs with
  | nil =>
      cases qs with
      | nil => rfl
      | cons q qs =>
          rw [spell_cons] at h
          exact absurd (List.append_eq_nil_iff.mp h.symm).1 (spell_ne_nil q)
  | cons p ps ih =>
      cases qs with
      | nil =>
          rw [spell_cons] at h
          exact absurd (List.append_eq_nil_iff.mp h).1 (spell_ne_nil p)
      | cons q qs =>
          rw [spell_cons, spell_cons] at h
          obtain rfl := piece_unique (hps p List.mem_cons_self) (hqs q List.mem_cons_self) h
          rw [ih (fun x hx => hps x (List.mem_cons_of_mem _ hx))
            (fun x hx => hqs x (List.mem_cons_of_mem _ hx)) (List.append_cancel_left h)]

/-! ## The grammar -/

theorem wraps_of_inRange {p : Piece} (h : p.InRange argc) : p.WrapsInRange argc := by
  cases p with
  | literal c => trivial
  | brace => trivial
  | item ds text => exact Nat.lt_of_le_of_lt (Nat.mod_le _ _) h

/-- Pieces are all taken up to the first empty format text. -/
theorem taken_or_empty {ps : List Piece} (h : ∀ p ∈ ps, p.WellFormed ∧ p.InRange argc) :
    (∀ p ∈ ps, Taken argc p) ∨ ∃ qs p rest, (∀ q ∈ qs, Taken argc q) ∧ Piece.WellFormed p ∧
      p.WrapsInRange argc ∧ p.EmptyText ∧ spell ps = spell qs ++ (p.spell ++ rest) := by
  induction ps with
  | nil => exact .inl fun p hp => nomatch hp
  | cons p ps ih =>
      obtain ⟨hwell, hrange⟩ := h p List.mem_cons_self
      by_cases hempty : p.EmptyText
      · exact .inr ⟨[], p, spell ps, (fun q hq => nomatch hq), hwell, wraps_of_inRange hrange,
          hempty, spell_cons p ps⟩
      · have hp : Taken argc p := ⟨hwell, wraps_of_inRange hrange, hempty⟩
        rcases ih fun q hq => h q (List.mem_cons_of_mem _ hq) with
          hall | ⟨qs, q, rest, hqs, hwell', hrange', hempty', hspell⟩
        · exact .inl (List.forall_mem_cons.mpr ⟨hp, hall⟩)
        · refine .inr ⟨p :: qs, q, rest, List.forall_mem_cons.mpr ⟨hp, hqs⟩, hwell', hrange',
            hempty', ?_⟩
          rw [spell_cons, spell_cons, hspell, List.append_assoc]

theorem Fit.write_parses {fmt : CString} {ps : List Piece} (hfit : Fit argc fmt)
    (h : Parses argc fmt ps) : write fmt argc argv = .returned .okay (prints argv ps) := by
  rcases taken_or_empty h.1 with hps | ⟨qs, p, rest, hqs, hwell, hrange, hempty, hspell⟩
  · exact write_taken hps h.2
  · exact (hfit.nonempty qs p rest hqs hwell hrange hempty (h.2.trans hspell)).elim

/-- The formatter does what is asked exactly when it meets no empty format text and no index that
wraps around into the arguments. -/
theorem follows_iff (fmt : CString) (argc : UInt64) (argv : UInt64 → PositionalFormatArgument α) :
    Follows argc argv fmt (write fmt argc argv) ↔ Fit argc fmt := by
  have hends := @scan_cases _ argc argv _ _ [] _ _ (settled_start fmt.bytes) rfl
    fmt.nonzero
  constructor
  · intro h
    refine ⟨?_, ?_⟩
    · intro ps p rest hps hwell hrange hempty hfmt
      exact h.within (write_emptyText hps hwell hrange hempty hfmt)
    · intro ps hps hfmt
      have hokay := @write_taken _ _ argv _ _ hps hfmt
      have hgrammar : ∃ qs, Parses argc fmt qs := by
        refine not_not.mp fun hnone => ?_
        obtain ⟨output, hbad⟩ := h.rejects.mpr hnone
        exact nomatch hokay.symm.trans hbad
      obtain ⟨qs, hqs, hfmt'⟩ := hgrammar
      rw [spell_inj (fun p hp => (hps p hp).1) (fun q hq => (hqs q hq).1) (hfmt.symm.trans hfmt')]
      exact fun q hq => (hqs q hq).2
  · intro hfit
    refine ⟨⟨?_, ?_⟩, fun ps h => hfit.write_parses h, ?_⟩
    · rintro ⟨output, hbad⟩ ⟨ps, hps⟩
      exact nomatch (hfit.write_parses hps).symm.trans hbad
    · intro hnone
      rcases hends with ⟨ps, hps, hfmt⟩ | ⟨ps, p, rest, hps, hwell, hrange, hempty, hfmt⟩ | hbad
      · exact (hnone ⟨ps, fun p hp => ⟨(hps p hp).1, hfit.short ps hps hfmt p hp⟩, hfmt⟩).elim
      · exact (hfit.nonempty ps p rest hps hwell hrange hempty hfmt).elim
      · exact hbad
    · intro hover
      rcases hends with ⟨ps, hps, hfmt⟩ | ⟨ps, p, rest, hps, hwell, hrange, hempty, hfmt⟩ | hbad
      · exact nomatch (write_taken hps hfmt).symm.trans hover
      · exact hfit.nonempty ps p rest hps hwell hrange hempty hfmt
      · obtain ⟨output, hbad⟩ := hbad
        exact nomatch hbad.symm.trans hover

/-- `"{0:}"` with one argument. -/
theorem not_follows : ¬ ∀ (fmt : CString) (argc : UInt64)
    (argv : UInt64 → PositionalFormatArgument Unit), Follows argc argv fmt (write fmt argc argv) :=
  fun h => (h ⟨[123, 48, 58, 125], by decide⟩ 1 fun _ => ⟨(), fun _ _ => []⟩).within
    (by decide +kernel)

end Beelzebub.Positional
