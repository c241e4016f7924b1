import Beelzebub.Handles
import Beelzebub.Utils.Strings
import Mathlib.Algebra.BigOperators.Group.List.Basic
import Mathlib.Data.List.GetD

/-!
# The tokens of a command line

`StartParsing` goes over the string twice, with the same flags.  The first pass makes zeros of
the blanks outside quotes.  The second one leaves out the quotes, expands the escapes and leaves
one zero of each run, and writes what it keeps behind the place that it reads.

What it should leave is said by a reference tokenizer: characters become pieces, and a word is a
run of pieces between blanks.
-/

namespace Beelzebub.CommandLine

open Strings

/-! ## The code -/

def backslash : UInt8 := 0x5C

def singleQuote : UInt8 := 0x27

def doubleQuote : UInt8 := 0x22

/-- A space, a tab, a new line or a carriage return. -/
def blanks : List UInt8 := [0x20, 0x09, 0x0A, 0x0D]

/-- The character that stands for an escaped one: `\0`, `\a`, `\b`, `\f`, `\n`, `\r`, `\v` or
`\t`, or the character itself. -/
def escape (c : UInt8) : UInt8 :=
  if c = 0x30 then 0x00
  else if c = 0x61 then 0x07
  else if c = 0x62 then 0x08
  else if c = 0x66 then 0x0C
  else if c = 0x6E then 0x0A
  else if c = 0x72 then 0x0D
  else if c = 0x76 then 0x0B
  else if c = 0x74 then 0x09
  else c

structure Flags where
  underEscape : Bool
  underSingleQuotes : Bool
  underDoubleQuotes : Bool
  deriving DecidableEq

def Flags.clear : Flags := ⟨false, false, false⟩

/-- The body of the first loop: what it leaves of the character, and the flags. -/
def firstStep (f : Flags) (c : UInt8) : UInt8 × Flags :=
  if f.underEscape then (c, { f with underEscape := false })
  else if f.underSingleQuotes then
    if c = backslash then (c, { f with underEscape := true })
    else if c = singleQuote then (c, { f with underSingleQuotes := false })
    else (c, f)
  else if f.underDoubleQuotes then
    if c = backslash then (c, { f with underEscape := true })
    else if c = doubleQuote then (c, { f with underDoubleQuotes := false })
    else (c, f)
  else if c = backslash then (c, { f with underEscape := true })
  else if c = singleQuote then (c, { f with underSingleQuotes := true })
  else if c = doubleQuote then (c, { f with underDoubleQuotes := true })
  else if c ∈ blanks then (0, f)
  else (c, f)

def firstPass : Flags → List UInt8 → List UInt8 × Flags
  | f, [] => ([], f)
  | f, c :: cs =>
      ((firstStep f c).1 :: (firstPass (firstStep f c).2 cs).1, (firstPass (firstStep f c).2 cs).2)

/-- The state of the second loop. -/
structure Second where
  input : List UInt8
  j : ℕ
  tkCnt : ℕ
  lastWasNull : Bool
  flags : Flags
  deriving DecidableEq

namespace Second

/-- `input[j++] = c`. -/
def put (c : UInt8) (s : Second) : Second :=
  { s with input := s.input.set s.j c, j := s.j + 1 }

/-- The body of the second loop. -/
def step (i : ℕ) (s : Second) : Second :=
  let c := s.input.getD i 0
  if s.flags.underEscape then
    { s.put (escape c) with flags := { s.flags with underEscape := false } }
  else if s.flags.underSingleQuotes then
    if c = backslash then { s with flags := { s.flags with underEscape := true } }
    else if c = singleQuote then { s with flags := { s.flags with underSingleQuotes := false } }
    else s.put c
  else if s.flags.underDoubleQuotes then
    if c = backslash then { s with flags := { s.flags with underEscape := true } }
    else if c = doubleQuote then { s with flags := { s.flags with underDoubleQuotes := false } }
    else s.put c
  else if c = 0 then
    if s.lastWasNull then s
    else { s.put c with lastWasNull := true, tkCnt := s.tkCnt + 1 }
  else
    let s := { s with lastWasNull := false }
    if c = backslash then { s with flags := { s.flags with underEscape := true } }
    else if c = singleQuote then { s with flags := { s.flags with underSingleQuotes := true } }
    else if c = doubleQuote then { s with flags := { s.flags with underDoubleQuotes := true } }
    else s.put c

end Second

/-- The second loop, from `i` on and so many times. -/
def secondPass : ℕ → ℕ → Second → Second
  | 0, _, s => s
  | n + 1, i, s => secondPass n (i + 1) (s.step i)

structure CommandLineOptionParser where
  inputString : Pointer
  length : ℕ
  tokenCount : ℕ
  started : Bool
  deriving DecidableEq

namespace CommandLineOptionParser

def new : CommandLineOptionParser := ⟨[], 0, 0, false⟩

/-- What follows the second loop. -/
def finish (s : Second) (parser : CommandLineOptionParser) : CommandLineOptionParser :=
  if s.lastWasNull then
    { parser with
      inputString := s.input, length := decrement s.j, tokenCount := s.tkCnt, started := true }
  else
    { parser with
      inputString := s.input.set s.j 0, length := s.j, tokenCount := s.tkCnt + 1, started := true }

/-- `StartParsing`, or no result when `strlen` leaves the memory. -/
def startParsing (input : Pointer) (parser : CommandLineOptionParser) :
    Option (HandleResult × CommandLineOptionParser) :=
  if parser.started then some (.unsupportedOperation, parser)
  else
    (strlen input).map fun len =>
      let first := firstPass .clear (input.take len)
      let parser := { parser with inputString := first.1 ++ input.drop len }
      if first.2 ≠ .clear then (.cmdOptionsMalformatted, parser)
      else (.okay, parser.finish (secondPass len 0 ⟨parser.inputString, 0, 0, true, first.2⟩))

end CommandLineOptionParser

/-! ## The reference tokenizer -/

/-- What a part of the input stands for. -/
inductive Piece where
  | char (c : UInt8)
  | quote
  | blank
  deriving DecidableEq

inductive Quotes where
  | none
  | single
  | double

/-- The pieces of a string, which begins inside of such quotes.  There are none when it leaves a
quote or an escape open. -/
def pieces : Quotes → List UInt8 → Option (List Piece)
  | .none, [] => some []
  | .single, [] => none
  | .double, [] => none
  | quotes, c :: cs =>
      if c = backslash then
        match cs with
        | [] => none
        | e :: cs => (pieces quotes cs).map (.char (escape e) :: ·)
      else
        match quotes with
        | .none =>
            if c = singleQuote then (pieces .single cs).map (.quote :: ·)
            else if c = doubleQuote then (pieces .double cs).map (.quote :: ·)
            else if c ∈ blanks then (pieces .none cs).map (.blank :: ·)
            else (pieces .none cs).map (.char c :: ·)
        | .single =>
            if c = singleQuote then (pieces .none cs).map (.quote :: ·)
            else (pieces .single cs).map (.char c :: ·)
        | .double =>
            if c = doubleQuote then (pieces .none cs).map (.quote :: ·)
            else (pieces .double cs).map (.char c :: ·)

/-- The words of a list of pieces, when this much of a word stands before it. -/
def words : Option (List UInt8) → List Piece → List (List UInt8)
  | word, [] => word.toList
  | word, .char c :: ps => words (some (word.getD [] ++ [c])) ps
  | word, .quote :: ps => words (some (word.getD [])) ps
  | word, .blank :: ps => word.toList ++ words none ps

/-- The reference tokenizer. -/
def tokenize (s : List UInt8) : Option (List (List UInt8)) := (pieces .none s).map (words none)

/-! ## What is asked -/

/-- The tokens, each with a zero after it. -/
def joined (tokens : List (List UInt8)) : List UInt8 := tokens.flatMap (· ++ [0])

/-- The tokens and the separators between them. -/
def joinedLength (tokens : List (List UInt8)) : ℕ :=
  (tokens.map List.length).sum + (tokens.length - 1)

/-- What a parser holds when these are the tokens of a string. -/
structure Holds (s : CString) (tokens : List (List UInt8)) (parser : CommandLineOptionParser) :
    Prop where
  count : parser.tokenCount = tokens.length
  buffer : joined tokens <+: parser.inputString
  length : parser.length = joinedLength tokens
  length_le : parser.length ≤ s.length

/-- `StartParsing` on a new parser does what the reference tokenizer says. -/
def Tokenizes (s : CString) : Prop :=
  ∃ result parser, CommandLineOptionParser.new.startParsing s.bytes = some (result, parser) ∧
    match tokenize s.chars with
    | none => result = .cmdOptionsMalformatted
    | some tokens => result = .okay ∧ Holds s tokens parser

/-! ## The first pass -/

/-- The flags inside of such quotes. -/
def flagsOf : Quotes → Flags
  | .none => .clear
  | .single => ⟨false, true, false⟩
  | .double => ⟨false, false, true⟩

variable {quotes : Quotes} {c e : UInt8} {cs : List UInt8}

theorem firstStep_backslash :
    firstStep (flagsOf quotes) backslash =
      (backslash, { flagsOf quotes with underEscape := true }) := by
  cases quotes <;> rfl

theorem firstStep_escaped :
    firstStep { flagsOf quotes with underEscape := true } e = (e, flagsOf quotes) := by
  cases quotes <;> rfl

theorem firstStep_singleQuote_none :
    firstStep (flagsOf .none) singleQuote = (singleQuote, flagsOf .single) := rfl

theorem firstStep_doubleQuote_none :
    firstStep (flagsOf .none) doubleQuote = (doubleQuote, flagsOf .double) := rfl

theorem firstStep_blank (h : c ∈ blanks) : firstStep (flagsOf .none) c = (0, flagsOf .none) := by
  have hall : blanks.all (fun c => firstStep (flagsOf .none) c = (0, flagsOf .none)) := by decide
  exact of_decide_eq_true (List.all_eq_true.mp hall c h)

theorem firstStep_plain (hb : c ≠ backslash) (hs : c ≠ singleQuote) (hd : c ≠ doubleQuote)
    (h : c ∉ blanks) : firstStep (flagsOf .none) c = (c, flagsOf .none) := by
  show (if c = backslash then _ else if c = singleQuote then _ else if c = doubleQuote then _
    else if c ∈ blanks then _ else (c, flagsOf .none)) = _
  rw [if_neg hb, if_neg hs, if_neg hd, if_neg h]

theorem firstStep_singleQuote : firstStep (flagsOf .single) singleQuote =
    (singleQuote, flagsOf .none) := rfl

theorem firstStep_single (hb : c ≠ backslash) (hs : c ≠ singleQuote) :
    firstStep (flagsOf .single) c = (c, flagsOf .single) := by
  show (if c = backslash then _ else if c = singleQuote then _ else (c, flagsOf .single)) = _
  rw [if_neg hb, if_neg hs]

theorem firstStep_doubleQuote : firstStep (flagsOf .double) doubleQuote =
    (doubleQuote, flagsOf .none) := rfl

theorem firstStep_double (hb : c ≠ backslash) (hd : c ≠ doubleQuote) :
    firstStep (flagsOf .double) c = (c, flagsOf .double) := by
  show (if c = backslash then _ else if c = doubleQuote then _ else (c, flagsOf .double)) = _
  rw [if_neg hb, if_neg hd]

theorem firstPass_cons {f f' : Flags} {c' : UInt8} (h : firstStep f c = (c', f')) :
    firstPass f (c :: cs) = (c' :: (firstPass f' cs).1, (firstPass f' cs).2) := by
  show ((firstStep f c).1 :: (firstPass (firstStep f c).2 cs).1,
    (firstPass (firstStep f c).2 cs).2) = _
  rw [h]

theorem firstPass_escaped : firstPass (flagsOf quotes) (backslash :: e :: cs) =
    (backslash :: e :: (firstPass (flagsOf quotes) cs).1, (firstPass (flagsOf quotes) cs).2) := by
  rw [firstPass_cons firstStep_backslash, firstPass_cons firstStep_escaped]

/-- The first pass leaves a flag set where nothing is left for the reference tokenizer. -/
theorem firstPass_flags (quotes : Quotes) (cs : List UInt8) :
    (firstPass (flagsOf quotes) cs).2 = .clear ↔ (pieces quotes cs).isSome = true := by
  fun_induction pieces quotes cs with
  | case1 => exact ⟨fun _ => rfl, fun _ => rfl⟩
  | case2 => decide
  | case3 => decide
  | case4 quotes =>
      rw [firstPass_cons firstStep_backslash]
      cases quotes <;> decide
  | case5 quotes e cs ih => rw [firstPass_escaped, Option.isSome_map, ih]
  | case6 cs _ ih => rw [firstPass_cons firstStep_singleQuote_none, Option.isSome_map, ih]
  | case7 cs _ _ ih => rw [firstPass_cons firstStep_doubleQuote_none, Option.isSome_map, ih]
  | case8 c cs _ _ _ hblank ih =>
      rw [firstPass_cons (firstStep_blank hblank), Option.isSome_map, ih]
  | case9 c cs hb hs hd hblank ih =>
      rw [firstPass_cons (firstStep_plain hb hs hd hblank), Option.isSome_map, ih]
  | case10 cs _ ih => rw [firstPass_cons firstStep_singleQuote, Option.isSome_map, ih]
  | case11 c cs hb hs ih => rw [firstPass_cons (firstStep_single hb hs), Option.isSome_map, ih]
  | case12 cs _ ih => rw [firstPass_cons firstStep_doubleQuote, Option.isSome_map, ih]
  | case13 c cs hb hd ih => rw [firstPass_cons (firstStep_double hb hd), Option.isSome_map, ih]

/-! ## The second pass -/

namespace Second

variable {s s' : Second} {f f' : Flags} {c' : UInt8} {i : ℕ} {closed : List (List UInt8)}
  {word : Option (List UInt8)} {gap ahead : List UInt8}

/-- The state after some steps: what is kept is before `j`, that is the tokens that are complete
and a part of the next one, and from `i` on the string is as the first pass has left it. -/
structure At (s : Second) (f : Flags) (i : ℕ) (closed : List (List UInt8))
    (word : Option (List UInt8)) (gap ahead : List UInt8) : Prop where
  input : s.input = joined closed ++ word.getD [] ++ gap ++ ahead
  j : s.j = (joined closed ++ word.getD []).length
  i : i = s.j + gap.length
  flags : s.flags = f
  count : s.tkCnt = closed.length
  null : s.lastWasNull = word.isNone
  quoted : f = .clear ∨ s.lastWasNull = false

/-- A step that writes nothing, within a token. -/
structure Keeps (s s' : Second) (f : Flags) : Prop where
  input : s'.input = s.input
  j : s'.j = s.j
  count : s'.tkCnt = s.tkCnt
  null : s'.lastWasNull = false
  flags : s'.flags = f

/-- A step that writes a character of a token. -/
structure Puts (s s' : Second) (c : UInt8) (f : Flags) : Prop where
  input : s'.input = s.input.set s.j c
  j : s'.j = s.j + 1
  count : s'.tkCnt = s.tkCnt
  null : s'.lastWasNull = false
  flags : s'.flags = f

/-! ### Lists -/

theorem getD_append (out gap ahead : List UInt8) (c : UInt8) :
    (out ++ gap ++ c :: ahead).getD (out.length + gap.length) 0 = c := by
  rw [← List.length_append, List.getD_append_right _ _ _ _ (Nat.le_refl _), Nat.sub_self]
  rfl

/-- A character is written over the first one that is no longer needed. -/
theorem set_append (out gap ahead : List UInt8) (c c' : UInt8) :
    (out ++ gap ++ c :: ahead).set out.length c' = out ++ [c'] ++ (gap ++ [c]).tail ++ ahead := by
  rw [List.append_assoc, List.set_append_right _ _ (Nat.le_refl _), Nat.sub_self]
  cases gap with
  | nil => simp
  | cons g gap => simp

theorem joined_append (ts us : List (List UInt8)) : joined (ts ++ us) = joined ts ++ joined us :=
  List.flatMap_append

theorem joined_singleton (t : List UInt8) : joined [t] = t ++ [0] := List.append_nil _

/-! ### What a step does to the state -/

theorem At.read (h : s.At f i closed word gap (c :: ahead)) : s.input.getD i 0 = c := by
  rw [h.input, h.i, h.j, getD_append]

theorem At.keep (h : s.At f i closed word gap (c :: ahead)) (hs : Keeps s s' f') :
    s'.At f' (i + 1) closed (some (word.getD [])) (gap ++ [c]) ahead where
  input := by
    rw [hs.input, h.input]
    simp
  j := hs.j.trans h.j
  i := by
    rw [hs.j, h.i, List.length_append]
    rfl
  flags := hs.flags
  count := hs.count.trans h.count
  null := hs.null
  quoted := .inr hs.null

theorem At.put (h : s.At f i closed word gap (c :: ahead)) (hs : Puts s s' c' f') :
    s'.At f' (i + 1) closed (some (word.getD [] ++ [c'])) (gap ++ [c]).tail ahead where
  input := by
    rw [hs.input, h.input, h.j, set_append, Option.getD_some, ← List.append_assoc]
  j := by
    rw [hs.j, h.j, Option.getD_some]
    simp only [List.length_append, List.length_singleton, Nat.add_assoc]
  i := by
    rw [hs.j, h.i, List.length_tail, List.length_append]
    show s.j + gap.length + 1 = s.j + 1 + (gap.length + 1 - 1)
    omega
  flags := hs.flags
  count := hs.count.trans h.count
  null := hs.null
  quoted := .inr hs.null

/-- A zero outside quotes ends a token, if there is one. -/
theorem At.blank (h : s.At .clear i closed word gap (0 :: ahead)) :
    ∃ gap', (s.step i).At .clear (i + 1) (closed ++ word.toList) none gap' ahead := by
  have hread := h.read
  have hstep : s.step i = if s.lastWasNull then s
      else { s.put 0 with lastWasNull := true, tkCnt := s.tkCnt + 1 } := by
    unfold Second.step
    rw [hread, h.flags]
    rfl
  cases word with
  | none =>
      have hnull : s.lastWasNull = true := h.null
      have hclosed : closed ++ (none : Option (List UInt8)).toList = closed := List.append_nil _
      rw [hstep, if_pos hnull, hclosed]
      refine ⟨gap ++ [0], ?_, h.j, ?_, h.flags, h.count, h.null, .inl rfl⟩
      · rw [h.input]
        simp
      · rw [h.i, List.length_append]
        rfl
  | some w =>
      have hnull : s.lastWasNull ≠ true := by
        rw [h.null]
        exact Bool.false_ne_true
      rw [hstep, if_neg hnull]
      have hout : joined (closed ++ [w]) = joined closed ++ w ++ [0] := by
        rw [joined_append, joined_singleton, List.append_assoc]
      refine ⟨(gap ++ [0]).tail, ?_, ?_, ?_, h.flags, ?_, rfl, .inl rfl⟩
      · show s.input.set s.j 0 = joined (closed ++ [w]) ++ [] ++ (gap ++ [0]).tail ++ ahead
        rw [h.input, h.j, hout, List.append_nil]
        exact set_append (joined closed ++ w) gap ahead 0 0
      · show s.j + 1 = (joined (closed ++ [w]) ++ []).length
        rw [h.j, hout, List.append_nil, Option.getD_some]
        simp only [List.length_append, List.length_singleton]
      · show i + 1 = s.j + 1 + (gap ++ [0]).tail.length
        rw [h.i, List.length_tail, List.length_append]
        show s.j + gap.length + 1 = s.j + 1 + (gap.length + 1 - 1)
        omega
      · show s.tkCnt + 1 = (closed ++ [w]).length
        rw [List.length_append, h.count]
        rfl

/-! ### Steps -/

/-- The step of a state with these flags at this character. -/
theorem step_of {t : Second} (hflags : s.flags = f) (hread : s.input.getD i 0 = c)
    (ht : t = if f.underEscape then
        { s.put (escape c) with flags := { f with underEscape := false } }
      else if f.underSingleQuotes then
        if c = backslash then { s with flags := { f with underEscape := true } }
        else if c = singleQuote then { s with flags := { f with underSingleQuotes := false } }
        else s.put c
      else if f.underDoubleQuotes then
        if c = backslash then { s with flags := { f with underEscape := true } }
        else if c = doubleQuote then { s with flags := { f with underDoubleQuotes := false } }
        else s.put c
      else if c = 0 then
        if s.lastWasNull then s else { s.put c with lastWasNull := true, tkCnt := s.tkCnt + 1 }
      else if c = backslash then
        { s with lastWasNull := false, flags := { f with underEscape := true } }
      else if c = singleQuote then
        { s with lastWasNull := false, flags := { f with underSingleQuotes := true } }
      else if c = doubleQuote then
        { s with lastWasNull := false, flags := { f with underDoubleQuotes := true } }
      else { s.put c with lastWasNull := false }) : s.step i = t := by
  subst hflags
  rw [ht]
  unfold Second.step
  rw [hread]
  rfl

theorem escape_step (hflags : s.flags = { flagsOf quotes with underEscape := true })
    (hread : s.input.getD i 0 = e) (hnull : s.lastWasNull = false) :
    Puts s (s.step i) (escape e) (flagsOf quotes) := by
  rw [step_of hflags hread rfl]
  cases quotes <;> exact ⟨rfl, rfl, rfl, hnull, rfl⟩

theorem backslash_step (hflags : s.flags = flagsOf quotes) (hread : s.input.getD i 0 = backslash)
    (hnull : flagsOf quotes = .clear ∨ s.lastWasNull = false) :
    Keeps s (s.step i) { flagsOf quotes with underEscape := true } := by
  rw [step_of hflags hread rfl]
  cases quotes with
  | none => exact ⟨rfl, rfl, rfl, rfl, rfl⟩
  | single => exact ⟨rfl, rfl, rfl, hnull.resolve_left (by decide), rfl⟩
  | double => exact ⟨rfl, rfl, rfl, hnull.resolve_left (by decide), rfl⟩

theorem singleQuote_step (hflags : s.flags = flagsOf .none)
    (hread : s.input.getD i 0 = singleQuote) : Keeps s (s.step i) (flagsOf .single) := by
  rw [step_of hflags hread rfl]
  exact ⟨rfl, rfl, rfl, rfl, rfl⟩

theorem doubleQuote_step (hflags : s.flags = flagsOf .none)
    (hread : s.input.getD i 0 = doubleQuote) : Keeps s (s.step i) (flagsOf .double) := by
  rw [step_of hflags hread rfl]
  exact ⟨rfl, rfl, rfl, rfl, rfl⟩

theorem plain_step (hflags : s.flags = flagsOf .none) (hread : s.input.getD i 0 = c) (hc : c ≠ 0)
    (hb : c ≠ backslash) (hs : c ≠ singleQuote) (hd : c ≠ doubleQuote) :
    Puts s (s.step i) c (flagsOf .none) := by
  refine step_of (t := { s.put c with lastWasNull := false }) hflags hread ?_ ▸
    ⟨rfl, rfl, rfl, rfl, hflags⟩
  show _ = if c = 0 then _ else if c = backslash then _ else if c = singleQuote then _
    else if c = doubleQuote then _ else { s.put c with lastWasNull := false }
  rw [if_neg hc, if_neg hb, if_neg hs, if_neg hd]

theorem single_close (hflags : s.flags = flagsOf .single) (hread : s.input.getD i 0 = singleQuote)
    (hnull : s.lastWasNull = false) : Keeps s (s.step i) (flagsOf .none) := by
  rw [step_of hflags hread rfl]
  exact ⟨rfl, rfl, rfl, hnull, rfl⟩

theorem single_step (hflags : s.flags = flagsOf .single) (hread : s.input.getD i 0 = c)
    (hnull : s.lastWasNull = false) (hb : c ≠ backslash) (hs : c ≠ singleQuote) :
    Puts s (s.step i) c (flagsOf .single) := by
  refine step_of (t := s.put c) hflags hread ?_ ▸ ⟨rfl, rfl, rfl, hnull, hflags⟩
  show _ = if c = backslash then _ else if c = singleQuote then _ else s.put c
  rw [if_neg hb, if_neg hs]

theorem double_close (hflags : s.flags = flagsOf .double) (hread : s.input.getD i 0 = doubleQuote)
    (hnull : s.lastWasNull = false) : Keeps s (s.step i) (flagsOf .none) := by
  rw [step_of hflags hread rfl]
  exact ⟨rfl, rfl, rfl, hnull, rfl⟩

theorem double_step (hflags : s.flags = flagsOf .double) (hread : s.input.getD i 0 = c)
    (hnull : s.lastWasNull = false) (hb : c ≠ backslash) (hd : c ≠ doubleQuote) :
    Puts s (s.step i) c (flagsOf .double) := by
  refine step_of (t := s.put c) hflags hread ?_ ▸ ⟨rfl, rfl, rfl, hnull, hflags⟩
  show _ = if c = backslash then _ else if c = doubleQuote then _ else s.put c
  rw [if_neg hb, if_neg hd]

/-! ### The whole pass -/

/-- The state after the last step. -/
def Done (s : Second) (closed : List (List UInt8)) (word : Option (List UInt8))
    (ps : List Piece) (ahead : List UInt8) (i : ℕ) : Prop :=
  ∃ closed' word' gap, s.At .clear i closed' word' gap ahead ∧
    closed' ++ word'.toList = closed ++ words word ps

/-- The second pass keeps the words of the pieces that are ahead. -/
theorem At.pass {ps : List Piece} (hps : pieces quotes cs = some ps) (hcs : 0 ∉ cs)
    (h : s.At (flagsOf quotes) i closed word gap ((firstPass (flagsOf quotes) cs).1 ++ ahead)) :
    Done (secondPass cs.length i s) closed word ps ahead (i + cs.length) := by
  have hlength : ∀ (i n : ℕ), i + (n + 1) = i + 1 + n := fun i n => by omega
  fun_induction pieces quotes cs generalizing s i closed word gap ps with
  | case1 =>
      obtain rfl : [] = ps := Option.some.inj hps
      exact ⟨closed, word, gap, h, rfl⟩
  | case2 => cases hps
  | case3 => cases hps
  | case4 quotes => cases hps
  | case5 quotes e cs ih =>
      obtain ⟨ps', hps', rfl⟩ := Option.map_eq_some_iff.mp hps
      rw [firstPass_escaped] at h
      have h := h.keep (backslash_step h.flags h.read h.quoted)
      have h := h.put (escape_step h.flags h.read h.null)
      have hcs := fun hmem => hcs (List.mem_cons_of_mem _ (List.mem_cons_of_mem _ hmem))
      rw [List.length_cons, List.length_cons, hlength i (cs.length + 1), hlength (i + 1) cs.length]
      have hdone := ih hps' hcs h
      exact hdone
  | case6 cs _ ih =>
      obtain ⟨ps', hps', rfl⟩ := Option.map_eq_some_iff.mp hps
      rw [firstPass_cons firstStep_singleQuote_none] at h
      have h := h.keep (singleQuote_step h.flags h.read)
      rw [List.length_cons, hlength i cs.length]
      have hdone := ih hps' (fun hmem => hcs (List.mem_cons_of_mem _ hmem)) h
      exact hdone
  | case7 cs _ _ ih =>
      obtain ⟨ps', hps', rfl⟩ := Option.map_eq_some_iff.mp hps
      rw [firstPass_cons firstStep_doubleQuote_none] at h
      have h := h.keep (doubleQuote_step h.flags h.read)
      rw [List.length_cons, hlength i cs.length]
      have hdone := ih hps' (fun hmem => hcs (List.mem_cons_of_mem _ hmem)) h
      exact hdone
  | case8 c cs _ _ _ hblank ih =>
      obtain ⟨ps', hps', rfl⟩ := Option.map_eq_some_iff.mp hps
      rw [firstPass_cons (firstStep_blank hblank)] at h
      obtain ⟨gap', h⟩ := h.blank
      obtain ⟨closed', word', gap'', hat, hwords⟩ :=
        ih hps' (fun hmem => hcs (List.mem_cons_of_mem _ hmem)) h
      rw [List.length_cons, hlength i cs.length]
      exact ⟨closed', word', gap'', hat, hwords.trans (List.append_assoc _ _ _)⟩
  | case9 c cs hb hs hd hblank ih =>
      obtain ⟨ps', hps', rfl⟩ := Option.map_eq_some_iff.mp hps
      rw [firstPass_cons (firstStep_plain hb hs hd hblank)] at h
      have hc : c ≠ 0 := fun hzero => hcs (hzero ▸ List.mem_cons_self)
      have h := h.put (plain_step h.flags h.read hc hb hs hd)
      rw [List.length_cons, hlength i cs.length]
      have hdone := ih hps' (fun hmem => hcs (List.mem_cons_of_mem _ hmem)) h
      exact hdone
  | case10 cs _ ih =>
      obtain ⟨ps', hps', rfl⟩ := Option.map_eq_some_iff.mp hps
      rw [firstPass_cons firstStep_singleQuote] at h
      have h := h.keep (single_close h.flags h.read (h.quoted.resolve_left (by decide)))
      rw [List.length_cons, hlength i cs.length]
      have hdone := ih hps' (fun hmem => hcs (List.mem_cons_of_mem _ hmem)) h
      exact hdone
  | case11 c cs hb hs ih =>
      obtain ⟨ps', hps', rfl⟩ := Option.map_eq_some_iff.mp hps
      rw [firstPass_cons (firstStep_single hb hs)] at h
      have h := h.put (single_step h.flags h.read (h.quoted.resolve_left (by decide)) hb hs)
      rw [List.length_cons, hlength i cs.length]
      have hdone := ih hps' (fun hmem => hcs (List.mem_cons_of_mem _ hmem)) h
      exact hdone
  | case12 cs _ ih =>
      obtain ⟨ps', hps', rfl⟩ := Option.map_eq_some_iff.mp hps
      rw [firstPass_cons firstStep_doubleQuote] at h
      have h := h.keep (double_close h.flags h.read (h.quoted.resolve_left (by decide)))
      rw [List.length_cons, hlength i cs.length]
      have hdone := ih hps' (fun hmem => hcs (List.mem_cons_of_mem _ hmem)) h
      exact hdone
  | case13 c cs hb hd ih =>
      obtain ⟨ps', hps', rfl⟩ := Option.map_eq_some_iff.mp hps
      rw [firstPass_cons (firstStep_double hb hd)] at h
      have h := h.put (double_step h.flags h.read (h.quoted.resolve_left (by decide)) hb hd)
      rw [List.length_cons, hlength i cs.length]
      have hdone := ih hps' (fun hmem => hcs (List.mem_cons_of_mem _ hmem)) h
      exact hdone

end Second

/-! ## Blank strings -/

theorem words_ne_nil (w : List UInt8) (ps : List Piece) : words (some w) ps ≠ [] := by
  induction ps generalizing w with
  | nil => exact List.cons_ne_nil _ _
  | cons p ps ih =>
      cases p with
      | char c => exact ih _
      | quote => exact ih _
      | blank => exact List.cons_ne_nil _ _

theorem words_eq_nil_iff (ps : List Piece) : words none ps = [] ↔ ∀ p ∈ ps, p = .blank := by
  induction ps with
  | nil => exact iff_of_true rfl fun _ h => nomatch h
  | cons p ps ih =>
      rw [List.forall_mem_cons]
      cases p with
      | char c => exact ⟨fun h => (words_ne_nil _ _ h).elim, fun h => nomatch h.1⟩
      | quote => exact ⟨fun h => (words_ne_nil _ _ h).elim, fun h => nomatch h.1⟩
      | blank =>
          show words none ps = [] ↔ _
          rw [ih]
          exact ⟨fun h => ⟨rfl, h⟩, fun h => h.2⟩

/-- Only blanks outside quotes are blank pieces. -/
theorem pieces_blank {ps : List Piece} (h : pieces quotes cs = some ps)
    (hblank : ∀ p ∈ ps, p = .blank) : quotes = .none ∧ ∀ c ∈ cs, c ∈ blanks := by
  have hhead : ∀ {p : Piece} {qs : Option (List Piece)} {ps}, qs.map (p :: ·) = some ps →
      (∀ p ∈ ps, p = .blank) → p = .blank := by
    intro p qs ps hmap hall
    obtain ⟨qs', -, rfl⟩ := Option.map_eq_some_iff.mp hmap
    exact hall p List.mem_cons_self
  fun_induction pieces quotes cs generalizing ps with
  | case1 => exact ⟨rfl, fun _ hc => nomatch hc⟩
  | case2 => cases h
  | case3 => cases h
  | case4 quotes => cases h
  | case8 c cs _ _ _ hc ih =>
      obtain ⟨qs, hqs, rfl⟩ := Option.map_eq_some_iff.mp h
      have hrest := (ih hqs fun p hp => hblank p (List.mem_cons_of_mem _ hp)).2
      exact ⟨rfl, List.forall_mem_cons.mpr ⟨hc, hrest⟩⟩
  | case5 | case6 | case7 | case9 | case10 | case11 | case12 | case13 =>
      cases hhead h hblank

theorem pieces_of_blanks (h : ∀ c ∈ cs, c ∈ blanks) :
    ∃ ps, pieces .none cs = some ps ∧ ∀ p ∈ ps, p = .blank := by
  induction cs with
  | nil => exact ⟨[], rfl, fun _ hp => nomatch hp⟩
  | cons c cs ih =>
      obtain ⟨hc, hcs⟩ := List.forall_mem_cons.mp h
      obtain ⟨ps, hps, hblank⟩ := ih hcs
      have hpiece : pieces .none (c :: cs) = (pieces .none cs).map (.blank :: ·) := by
        have hall : blanks.all (fun c => c ≠ backslash ∧ c ≠ singleQuote ∧ c ≠ doubleQuote) := by
          decide
        obtain ⟨hb, hs, hd⟩ := of_decide_eq_true (List.all_eq_true.mp hall c hc)
        rw [pieces.eq_def .none (c :: cs)]
        dsimp only
        rw [if_neg hb, if_neg hs, if_neg hd, if_pos hc]
      refine ⟨.blank :: ps, ?_, List.forall_mem_cons.mpr ⟨rfl, hblank⟩⟩
      rw [hpiece, hps]
      rfl

/-! ## The whole of `StartParsing` -/

theorem joined_length (ts : List (List UInt8)) :
    (joined ts).length = (ts.map List.length).sum + ts.length := by
  induction ts with
  | nil => rfl
  | cons t ts ih =>
      show (t ++ [0] ++ joined ts).length = (t.length + (ts.map List.length).sum) + (ts.length + 1)
      rw [List.length_append, List.length_append, ih, List.length_singleton]
      omega

theorem joined_length_of_ne {ts : List (List UInt8)} (h : ts ≠ []) :
    (joined ts).length = joinedLength ts + 1 := by
  have hpos := List.length_pos_iff.mpr h
  rw [joined_length]
  unfold joinedLength
  omega

/-- After the second pass the parser holds the tokens, if there is one. -/
theorem Second.At.finish {s : CString} {second : Second} {closed : List (List UInt8)}
    {word : Option (List UInt8)} {gap : List UInt8} {parser : CommandLineOptionParser}
    (h : second.At .clear s.length closed word gap [0]) :
    Holds s (closed ++ word.toList) (parser.finish second) ↔ closed ++ word.toList ≠ [] := by
  have hj := h.j
  have hi := h.i
  unfold CommandLineOptionParser.finish
  rw [h.null]
  cases word with
  | none =>
      rw [Option.toList_none, List.append_nil]
      rw [Option.getD_none, List.append_nil] at hj
      show Holds s closed ⟨second.input, decrement second.j, second.tkCnt, true⟩ ↔ _
      constructor
      · intro hholds hnil
        have hlength : decrement second.j = joinedLength closed := hholds.length
        rw [hj, hnil] at hlength
        exact absurd hlength (by decide)
      · intro hne
        have hlength := joined_length_of_ne hne
        have hdecrement : decrement second.j = joinedLength closed := by
          rw [hj, hlength]
          rfl
        refine ⟨h.count, ?_, hdecrement, ?_⟩
        · show joined closed <+: second.input
          rw [h.input, List.append_assoc, List.append_assoc]
          exact List.prefix_append _ _
        · show decrement second.j ≤ s.length
          omega
  | some w =>
      have hne : closed ++ [w] ≠ [] := List.append_ne_nil_of_right_ne_nil _ (List.cons_ne_nil _ _)
      have hout : joined (closed ++ [w]) = joined closed ++ w ++ [0] := by
        rw [Second.joined_append, Second.joined_singleton, List.append_assoc]
      have hlength := joined_length_of_ne hne
      rw [hout, List.length_append, List.length_singleton] at hlength
      refine ⟨fun _ => hne, fun _ => ⟨?_, ?_, ?_, ?_⟩⟩
      · show second.tkCnt + 1 = (closed ++ [w]).length
        rw [h.count, List.length_append, List.length_singleton]
      · show joined (closed ++ [w]) <+: second.input.set second.j 0
        rw [h.input, hj, hout]
        exact Second.set_append (joined closed ++ w) gap [] 0 0 ▸
          List.append_assoc _ (gap ++ [0]).tail [] ▸ List.prefix_append _ _
      · show second.j = joinedLength (closed ++ [w])
        exact hj.trans (Nat.succ.inj hlength)
      · show second.j ≤ s.length
        omega

theorem CString.take_bytes (s : CString) : s.bytes.take s.length = s.chars := List.take_left

theorem CString.drop_bytes (s : CString) : s.bytes.drop s.length = [0] := List.drop_left

/-- What `StartParsing` returns, in terms of the two passes. -/
theorem startParsing_bytes (s : CString) : CommandLineOptionParser.new.startParsing s.bytes =
    some (if (firstPass .clear s.chars).2 ≠ .clear then
        (.cmdOptionsMalformatted,
          { CommandLineOptionParser.new with inputString := (firstPass .clear s.chars).1 ++ [0] })
      else (.okay,
        { CommandLineOptionParser.new with
          inputString := (firstPass .clear s.chars).1 ++ [0] }.finish (secondPass s.length 0
            ⟨(firstPass .clear s.chars).1 ++ [0], 0, 0, true, (firstPass .clear s.chars).2⟩))) := by
  have hlen : strlen s.bytes = some s.length := strlen_append s.nonzero
  unfold CommandLineOptionParser.startParsing
  rw [if_neg (show ¬ CommandLineOptionParser.new.started = true from Bool.false_ne_true), hlen]
  dsimp only [Option.map_some]
  rw [CString.take_bytes, CString.drop_bytes]

/-- `StartParsing` does what the reference tokenizer says, but not on a string of blanks. -/
theorem tokenizes_iff (s : CString) : Tokenizes s ↔ ∃ c ∈ s.chars, c ∉ blanks := by
  unfold Tokenizes
  rw [startParsing_bytes]
  have hflags := firstPass_flags .none s.chars
  cases hps : pieces .none s.chars with
  | none =>
      rw [hps] at hflags
      have hopen : (firstPass .clear s.chars).2 ≠ .clear := fun h => nomatch hflags.mp h
      have htokens : tokenize s.chars = none := congrArg (Option.map (words none)) hps
      rw [if_pos hopen, htokens]
      refine ⟨fun _ => ?_, fun _ => ⟨_, _, rfl, rfl⟩⟩
      by_contra hall
      obtain ⟨ps, hsome, -⟩ := @pieces_of_blanks s.chars fun c hc => by
        by_contra hblank
        exact hall ⟨c, hc, hblank⟩
      rw [hps] at hsome
      cases hsome
  | some ps =>
      rw [hps] at hflags
      have hclear : (firstPass .clear s.chars).2 = .clear := hflags.mpr rfl
      have htokens : tokenize s.chars = some (words none ps) := congrArg (Option.map (words none)) hps
      rw [if_neg (not_not.mpr hclear), htokens, hclear]
      have hstart : Second.At ⟨(firstPass .clear s.chars).1 ++ [0], 0, 0, true, .clear⟩
          (flagsOf .none) 0 [] none [] ((firstPass (flagsOf .none) s.chars).1 ++ [0]) :=
        ⟨rfl, rfl, rfl, rfl, rfl, rfl, .inl rfl⟩
      obtain ⟨closed, word, gap, hat, hwords⟩ := hstart.pass hps s.nonzero
      rw [Nat.zero_add] at hat
      have hwords : closed ++ word.toList = words none ps := hwords
      have hfinish := @Second.At.finish s _ _ _ _
        { CommandLineOptionParser.new with inputString := (firstPass .clear s.chars).1 ++ [0] } hat
      rw [hwords] at hfinish
      have hsome : (∃ c ∈ s.chars, c ∉ blanks) ↔ words none ps ≠ [] := by
        rw [Ne, words_eq_nil_iff]
        constructor
        · rintro ⟨c, hc, hblank⟩ hall
          exact hblank ((pieces_blank hps hall).2 c hc)
        · intro hne
          by_contra hall
          obtain ⟨ps', hps', hblank⟩ := @pieces_of_blanks s.chars fun c hc => by
            by_contra hblank
            exact hall ⟨c, hc, hblank⟩
          rw [hps] at hps'
          exact hne (Option.some.inj hps' ▸ hblank)
      rw [hsome, ← hfinish]
      constructor
      · rintro ⟨result, parser, heq, -, hholds⟩
        cases heq
        exact hholds
      · intro hholds
        exact ⟨_, _, rfl, rfl, hholds⟩

/-- The empty string has no token, and its length is said to be `2 ^ 64 - 1`. -/
theorem not_tokenizes : ¬ ∀ s : CString, Tokenizes s := by
  intro hclaim
  obtain ⟨result, parser, heq, -, hholds⟩ := hclaim ⟨[], List.not_mem_nil⟩
  cases heq
  exact absurd hholds.length (by decide)

end Beelzebub.CommandLine
