import Beelzebub.CommandLine.Tokens
import Beelzebub.Utils.Conversions
import Mathlib.Data.List.Forall2

/-!
# Parsing a batch of options

Each call of `Next` looks for the next token with a dash, hands it to one of three functions that
go over the list of options, and moves the offset on.  When the offset is at the end the next
call gives each option without a result its default, and the batch is finished.

The list is a list of Lean, a string is what is left of the buffer from its first character on,
and a read past the buffer or of a form that is null is a fault.
-/

namespace Beelzebub.CommandLine

open Strings Conversions

/-! ## The code -/

inductive CommandLineOptionValueTypes where
  | booleanByPresence
  | booleanExplicit
  | string
  | signedInteger
  | unsignedInteger
  | float
  deriving DecidableEq

/-- The union of values. -/
inductive Value where
  | null
  | string (p : Pointer)
  | boolean (b : Bool)
  | signedInteger (z : ℤ)
  | unsignedInteger (u : UInt64)

/-- An option, without the link to the next one.  A handle that is not valid is `none`.  The
number of assignments is only for the record. -/
structure CommandLineOptionSpecification where
  shortForm : Option CString
  longForm : Option CString
  valueType : CommandLineOptionValueTypes
  parsingResult : Option HandleResult
  value : Value
  assigned : ℕ

namespace CommandLineOptionSpecification

/-- `ParsingResult.IsValid()`. -/
def isValid (opt : CommandLineOptionSpecification) : Bool := opt.parsingResult.isSome

def byPresence (opt : CommandLineOptionSpecification) : Bool :=
  opt.valueType = .booleanByPresence

/-- `ParsingResult = res`. -/
def assign (res : HandleResult) (opt : CommandLineOptionSpecification) :
    CommandLineOptionSpecification :=
  { opt with parsingResult := some res, assigned := opt.assigned + 1 }

/-- A conversion into the value. -/
def store {α : Type} (opt : CommandLineOptionSpecification) (f : α → Value) :
    HandleResult × Option α → HandleResult × CommandLineOptionSpecification
  | (res, none) => (res, opt)
  | (res, some val) => (res, { opt with value := f val })

end CommandLineOptionSpecification

abbrev Options := List CommandLineOptionSpecification

def handleValue (opt : CommandLineOptionSpecification) (input : Pointer) :
    Option (HandleResult × CommandLineOptionSpecification) :=
  match opt.valueType with
  | .booleanByPresence => some (.okay, { opt with value := .boolean true })
  | .booleanExplicit => (fromStringBool input).map (opt.store .boolean)
  | .string => some (.okay, { opt with value := .string input })
  | .signedInteger => (fromStringInt64 input).map (opt.store .signedInteger)
  | .unsignedInteger => (fromStringUInt64 input).map (opt.store .unsignedInteger)
  | .float => some (.cmdOptionValueTypeInvalid, opt)

def dash : UInt8 := 0x2D

def equals : UInt8 := 0x3D

/-- The token is too short for the long form. -/
def noLongRoom (lflen left : ℕ) (opt : CommandLineOptionSpecification) : Bool :=
  if opt.byPresence then lflen > left else lflen + 2 ≥ left

/-- The tests of `BatchCheckLongOption`: the length of the long form when all of them are
passed. -/
def longMatches (str : Pointer) (left : ℕ) (opt : CommandLineOptionSpecification) :
    Option (Option ℕ) :=
  if opt.isValid then some none
  else
    match opt.longForm with
    | none => some none
    | some longForm =>
        let lflen := longForm.length
        if noLongRoom lflen left opt then some none
        else do
          let res ← strncmp (str.drop 2) longForm.bytes lflen
          if res ≠ 0 then some none
          else
            let c ← read (str.drop (lflen + 2))
            if c ≠ 0 ∧ c ≠ equals then some none else some (some lflen)

/-- The offset after a long option.  Behind a value it is at the zero, not at the next token. -/
def longOffset (str : Pointer) (len lflen off : ℕ) (opt : CommandLineOptionSpecification) :
    Option ℕ :=
  if opt.byPresence then some (off + (len + 1))
  else (strlen (str.drop (3 + lflen))).map fun n => off + (lflen + 3 + n)

def batchCheckLongOption (str : Pointer) (len left off : ℕ) :
    Options → Option (HandleResult × ℕ × Options)
  | [] => some (.notFound, off + (len + 1), [])
  | opt :: next => do
      match ← longMatches str left opt with
      | none =>
          let (res, off', next') ← batchCheckLongOption str len left off next
          some (res, off', opt :: next')
      | some lflen =>
          let off' ← longOffset str len lflen off opt
          let (res, opt') ← handleValue opt (str.drop (3 + lflen))
          some (res, off', opt'.assign res :: next)

/-- The first tests of both functions for short options. -/
def noRoom (len left : ℕ) (opt : CommandLineOptionSpecification) : Bool :=
  opt.isValid || (!opt.byPresence && decide (len + 2 ≥ left))

/-- The tests of `BatchCheckShortWholeOption`. -/
def shortWholeMatches (str : Pointer) (len left : ℕ) (opt : CommandLineOptionSpecification) :
    Option Bool :=
  if noRoom len left opt then some false
  else
    match opt.shortForm with
    | none => none
    | some shortForm =>
        if shortForm.length = 1 then some false
        else (strncmp (str.drop 1) shortForm.bytes len).map (· == 0)

/-- The offset after an option with a short form and the value after it. -/
def shortOffset (str : Pointer) (len off : ℕ) (opt : CommandLineOptionSpecification) : Option ℕ :=
  if opt.byPresence then some (off + (len + 1))
  else (strlen (str.drop (1 + len))).map fun n => off + (len + 2 + n)

def batchCheckShortWholeOption (str : Pointer) (len left off : ℕ) :
    Options → Option (HandleResult × ℕ × Options)
  | [] => some (.notFound, off + (len + 1), [])
  | opt :: next => do
      if ← shortWholeMatches str len left opt then
        let off' ← shortOffset str len off opt
        let (res, opt') ← handleValue opt (str.drop (1 + len))
        some (res, off', opt'.assign res :: next)
      else
        let (res, off', next') ← batchCheckShortWholeOption str len left off next
        some (res, off', opt :: next')

/-- The tests of `BatchCheckShortPartialOption`. -/
def shortPartialMatches (str : Pointer) (len left : ℕ) (opt : CommandLineOptionSpecification) :
    Option Bool :=
  if noRoom len left opt then some false
  else
    match opt.shortForm with
    | none => none
    | some shortForm =>
        match shortForm.chars with
        | [c] => memchr (str.drop 1) c (len - 1)
        | _ => some false

def batchCheckShortPartialOption (str : Pointer) (len left off : ℕ) :
    Options → ℕ → Option (HandleResult × ℕ × Options)
  | [], optCnt => some (if optCnt = len - 1 then .okay else .notFound, off + (len + 1), [])
  | opt :: next, optCnt => do
      if ← shortPartialMatches str len left opt then
        let off' ← shortOffset str len off opt
        let (tmpRes, opt') ← handleValue opt (str.drop (1 + len))
        let (res, tmpOff, next') ← batchCheckShortPartialOption str len left off next
          (if tmpRes = .okay then optCnt + 1 else optCnt)
        some (res, if tmpOff > off' then tmpOff else off', opt'.assign tmpRes :: next')
      else
        let (res, tmpOff, next') ← batchCheckShortPartialOption str len left off next optCnt
        some (res, if tmpOff > off then tmpOff else off, opt :: next')

def wrapUpOption : Options → Options
  | [] => []
  | opt :: next =>
      (if opt.byPresence && !opt.isValid then
        { opt with value := .boolean false }.assign .okay else opt) :: wrapUpOption next

/-- The steps of a batch that was started. -/
inductive CommandLineOptionBatchStep where
  | starting
  | inProgress
  | wrappingUp
  | finished
  deriving DecidableEq

structure CommandLineOptionBatchState where
  parser : CommandLineOptionParser
  head : Options
  offset : ℕ
  step : CommandLineOptionBatchStep
  result : Option HandleResult

namespace CommandLineOptionBatchState

/-- The loop of `BatchInnerNext` up to a token with a dash, or to the end.  A loop that takes too
many rounds has no result. -/
def seek (parser : CommandLineOptionParser) : ℕ → ℕ → Option ℕ
  | 0, _ => none
  | rounds + 1, i =>
      if i + 1 < parser.length then do
        let len ← strlen (parser.inputString.drop i)
        let c ← read (parser.inputString.drop i)
        if c ≠ dash then seek parser rounds (i + (len + 1)) else some i
      else some i

/-- The first of the three functions that finds the token at `i`. -/
def checkOption (str : Pointer) (len left i : ℕ) (head : Options) :
    Option (HandleResult × ℕ × Options) := do
  let c ← read (str.drop 1)
  if c = dash then batchCheckLongOption str len left i head
  else if len = 2 then batchCheckShortPartialOption str len left i head 0
  else
    let (res, off, head') ← batchCheckShortWholeOption str len left i head
    if res = .notFound then batchCheckShortPartialOption str len left i head' 0
    else some (res, off, head')

def batchInnerNext (b : CommandLineOptionBatchState) : Option CommandLineOptionBatchState := do
  let i ← seek b.parser (b.parser.length + 1) b.offset
  if i + 1 < b.parser.length then
    let str := b.parser.inputString.drop i
    let len ← strlen str
    let (res, off, head) ← checkOption str len (b.parser.length - i) i b.head
    let step := if off ≥ b.parser.length then .wrappingUp else .inProgress
    some { b with head := head, offset := off, step := step, result := some res }
  else some { b with offset := i, step := .wrappingUp, result := some .okay }

def next (b : CommandLineOptionBatchState) : Option CommandLineOptionBatchState :=
  match b.step with
  | .finished => some { b with result := some .unsupportedOperation }
  | .wrappingUp =>
      some { b with head := wrapUpOption b.head, step := .finished, result := some .okay }
  | _ => b.batchInnerNext

/-- The state after so many calls of `Next`. -/
def calls (b : CommandLineOptionBatchState) : ℕ → Option CommandLineOptionBatchState
  | 0 => some b
  | n + 1 => (b.calls n).bind next

end CommandLineOptionBatchState

open CommandLineOptionBatchState

namespace CommandLineOptionParser

/-- `StartBatch`.  The record of assignments begins. -/
def startBatch (parser : CommandLineOptionParser) (head : Options) :
    CommandLineOptionBatchState where
  parser := parser
  head := head.map fun opt => { opt with assigned := 0 }
  offset := 0
  step := .starting
  result := none

/-- A parser that holds these tokens.  Its buffer ends with the zero after the last one. -/
def ofTokens (tokens : List CString) : CommandLineOptionParser where
  inputString := joined (tokens.map CString.chars)
  length := joinedLength (tokens.map CString.chars)
  tokenCount := tokens.length
  started := true

end CommandLineOptionParser

/-! ## What is asked -/

/-- A token begins there. -/
def IsStart (tokens : List CString) (off : ℕ) : Prop :=
  ∃ k < tokens.length, off = (joined ((tokens.take k).map CString.chars)).length

/-- What is asked of the state after so many calls. -/
structure Behaves (tokens : List CString) (n : ℕ) (b : CommandLineOptionBatchState) : Prop where
  advances : b.step = .starting ∨ b.step = .inProgress → ∀ b', b.next = some b' →
    b'.step = .wrappingUp ∨
      b.offset < b'.offset ∧ (IsStart tokens b'.offset ∨ b'.offset = b.parser.length)
  once : ∀ opt ∈ b.head, opt.assigned ≤ 1
  ends : b.parser.tokenCount + 2 ≤ n → b.step = .finished
  presence : b.step = .finished → ∀ opt ∈ b.head, opt.byPresence = true → opt.isValid = true

/-! ## The condition -/

/-- The first long option that is found has no value, or its value ends the command line, or it is
an empty token. -/
def LongFits (str : Pointer) (left : ℕ) : Options → Prop
  | [] => True
  | opt :: next =>
      match longMatches str left opt with
      | some none => LongFits str left next
      | some (some lflen) => opt.byPresence = true ∨ ∀ n, strlen (str.drop (3 + lflen)) = some n →
          lflen + 3 + n = left ∨ n = 0 ∧ read (str.drop (lflen + 2)) = some 0
      | none => True

/-- The option has a short form, if it is looked at. -/
def ShortFits (len left : ℕ) (opt : CommandLineOptionSpecification) : Prop :=
  noRoom len left opt = true ∨ opt.shortForm.isSome = true

/-- So have all options up to the one that is found. -/
def WholeFits (str : Pointer) (len left : ℕ) : Options → Prop
  | [] => True
  | opt :: next => ShortFits len left opt ∧
      (shortWholeMatches str len left opt = some true ∨ WholeFits str len left next)

/-- The token with a dash that a call comes to next meets its condition. -/
def Fit (b : CommandLineOptionBatchState) : Prop :=
  ∀ i c len, seek b.parser (b.parser.length + 1) b.offset = some i → i + 1 < b.parser.length →
    read ((b.parser.inputString.drop i).drop 1) = some c →
    strlen (b.parser.inputString.drop i) = some len →
    if c = dash then LongFits (b.parser.inputString.drop i) (b.parser.length - i) b.head
    else if len = 2 then ∀ opt ∈ b.head, ShortFits len (b.parser.length - i) opt
    else WholeFits (b.parser.inputString.drop i) len (b.parser.length - i) b.head

/-! ## One option -/

variable {t rest : List UInt8} {str : Pointer} {len left off : ℕ}
  {opt opt' : CommandLineOptionSpecification}

/-- What a call does to an option: nothing, or one assignment when it has no result. -/
def Assigns (opt opt' : CommandLineOptionSpecification) : Prop :=
  opt' = opt ∨ opt.isValid = false ∧ opt'.isValid = true ∧ opt'.assigned = opt.assigned + 1 ∧
    opt'.valueType = opt.valueType

theorem assigns_refl (head : Options) : List.Forall₂ Assigns head head :=
  List.forall₂_same.mpr fun _ _ => .inl rfl

/-- The value is read up to its end at most. -/
theorem handleValue_append (ht : opt.byPresence = true ∨ str = t ++ 0 :: rest) :
    ∃ res opt', handleValue opt str = some (res, opt') ∧ res ≠ .notFound ∧
      opt'.assigned = opt.assigned ∧ opt'.valueType = opt.valueType := by
  have hstore : ∀ {α : Type} {x : Option (HandleResult × Option α)} (f : α → Value), Converts x →
      ∃ res opt', x.map (opt.store f) = some (res, opt') ∧ res ≠ .notFound ∧
        opt'.assigned = opt.assigned ∧ opt'.valueType = opt.valueType := by
    rintro α x f ⟨res, val, rfl, hne⟩
    cases val with
    | none => exact ⟨res, opt, rfl, hne, rfl, rfl⟩
    | some val => exact ⟨res, { opt with value := f val }, rfl, hne, rfl, rfl⟩
  unfold handleValue
  cases htype : opt.valueType with
  | booleanByPresence => exact ⟨_, _, rfl, HandleResult.noConfusion, rfl, rfl⟩
  | string => exact ⟨_, _, rfl, HandleResult.noConfusion, rfl, rfl⟩
  | float => exact ⟨_, _, rfl, HandleResult.noConfusion, rfl, htype⟩
  | booleanExplicit | signedInteger | unsignedInteger =>
      have hstr : str = t ++ 0 :: rest := by
        refine ht.resolve_left fun hpresence => ?_
        unfold CommandLineOptionSpecification.byPresence at hpresence
        rw [htype] at hpresence
        cases hpresence
      rw [hstr]
      rw [htype] at hstore
      first
        | exact hstore .boolean fromStringBool_converts
        | exact hstore .signedInteger fromStringInt64_converts
        | exact hstore .unsignedInteger fromStringUInt64_converts

/-- A matching option gets the result and an assignment. -/
theorem assigns_assign {res : HandleResult} (hvalid : opt.isValid = false)
    (hassigned : opt'.assigned = opt.assigned) (htype : opt'.valueType = opt.valueType) :
    Assigns opt (opt'.assign res) :=
  .inr ⟨hvalid, rfl, congrArg (· + 1) hassigned, htype⟩

/-! ## One token -/

/-- The buffer that holds these tokens. -/
def buffer (tokens : List CString) : Pointer := joined (tokens.map CString.chars)

theorem buffer_cons (u : CString) (us : List CString) :
    buffer (u :: us) = u.chars ++ 0 :: buffer us := List.append_assoc _ [0] _

theorem exists_cons_of_length_pos {us : List CString} (h : 0 < (buffer us).length) :
    ∃ u us', us = u :: us' := by
  cases us with
  | nil => exact (Nat.lt_irrefl 0 h).elim
  | cons u us => exact ⟨u, us, rfl⟩

/-- The token at hand, what follows it, and how much is left up to the last zero. -/
structure Ahead (str : Pointer) (t : List UInt8) (us : List CString) (left : ℕ) : Prop where
  str : str = t ++ 0 :: buffer us
  nonzero : 0 ∉ t
  left : left = t.length + (buffer us).length

variable {us : List CString}

theorem Ahead.drop (h : Ahead str t us left) {n : ℕ} (hn : n ≤ t.length) :
    str.drop n = t.drop n ++ 0 :: buffer us := by
  rw [h.str, List.drop_append_of_le_length hn]

theorem Ahead.nonzero_drop (h : Ahead str t us left) (n : ℕ) : 0 ∉ t.drop n :=
  fun hmem => h.nonzero (List.mem_of_mem_drop hmem)

/-- The pointer behind the zero of the token is that to the next one. -/
theorem Ahead.drop_succ (h : Ahead str t us left) : str.drop (1 + t.length) = buffer us := by
  rw [Nat.add_comm, ← List.drop_drop, h.drop (Nat.le_refl _), List.drop_length]
  rfl

/-- The next token, when there is room for a value. -/
theorem Ahead.next (h : Ahead str t us left) (hroom : t.length < left) :
    ∃ u us', us = u :: us' ∧ str.drop (1 + t.length) = u.chars ++ 0 :: buffer us' := by
  have hleft := h.left
  obtain ⟨u, us', rfl⟩ := @exists_cons_of_length_pos us (by omega)
  exact ⟨u, us', rfl, h.drop_succ.trans (buffer_cons u us')⟩

/-! ### Long options -/

/-- The tests for a long option read the token up to its end at most. -/
theorem Ahead.longMatches (h : Ahead str t us left) (hlen : 2 ≤ t.length)
    (opt : CommandLineOptionSpecification) : ∃ m, longMatches str left opt = some m ∧
      ∀ lflen, m = some lflen → opt.isValid = false ∧ lflen + 2 ≤ t.length ∧
        (opt.byPresence = true ∨ lflen + 2 < left) := by
  unfold CommandLine.longMatches
  split
  next => exact ⟨none, rfl, fun _ hm => nomatch hm⟩
  next hvalid =>
    have hvalid := (Bool.not_eq_true _).mp hvalid
    cases opt.longForm with
    | none => exact ⟨none, rfl, fun _ hm => nomatch hm⟩
    | some longForm =>
        dsimp only
        split
        next => exact ⟨none, rfl, fun _ hm => nomatch hm⟩
        next hroom =>
          have hstr := h.drop hlen
          have hzero := h.nonzero_drop 2
          obtain ⟨res, hres⟩ := @strncmp_append _ _ (buffer us) hzero longForm.nonzero
            longForm.length
          rw [hstr]
          change strncmp (t.drop 2 ++ 0 :: buffer us) longForm.bytes longForm.length = _ at hres
          rw [hres]
          show ∃ m, (if res ≠ 0 then some none else _) = some m ∧ _
          split
          next => exact ⟨none, rfl, fun _ hm => nomatch hm⟩
          next hequal =>
            rw [not_not.mp hequal] at hres
            have hprefix := prefix_of_strncmp hzero longForm.nonzero (Nat.le_refl _) hres
            have hle : longForm.length ≤ (t.drop 2).length := hprefix.length_le
            rw [List.length_drop] at hle
            have hread : ∃ c, read (str.drop (longForm.length + 2)) = some c := by
              rw [h.drop (by omega)]
              cases t.drop (longForm.length + 2) with
              | nil => exact ⟨0, rfl⟩
              | cons c _ => exact ⟨c, rfl⟩
            obtain ⟨c, hc⟩ := hread
            rw [hc]
            show ∃ m, (if c ≠ 0 ∧ c ≠ equals then some none else some (some longForm.length)) =
              some m ∧ _
            split
            next => exact ⟨none, rfl, fun _ hm => nomatch hm⟩
            next =>
              refine ⟨some longForm.length, rfl, ?_⟩
              rintro _ ⟨⟩
              refine ⟨hvalid, by omega, ?_⟩
              cases hpresence : opt.byPresence with
              | true => exact .inl rfl
              | false =>
                  unfold noLongRoom at hroom
                  rw [hpresence] at hroom
                  have hroom : ¬ decide (longForm.length + 2 ≥ left) = true := hroom
                  rw [decide_eq_true_eq] at hroom
                  exact .inr (Nat.lt_of_not_le hroom)

/-- The value of a long option: it is in the same token, or it is the next one. -/
theorem Ahead.longValue (h : Ahead str t us left) {lflen : ℕ} (hlen : lflen + 2 ≤ t.length)
    (hroom : lflen + 2 < left) : ∃ v rest, str.drop (3 + lflen) = v ++ 0 :: rest ∧ 0 ∉ v := by
  rcases Nat.lt_or_eq_of_le hlen with hlt | heq
  · rw [h.drop (by omega)]
    exact ⟨_, _, rfl, h.nonzero_drop _⟩
  · obtain ⟨u, us', -, hdrop⟩ := h.next (heq ▸ hroom)
    rw [← heq, show 1 + (lflen + 2) = 3 + lflen by omega] at hdrop
    exact ⟨_, _, hdrop, u.nonzero⟩

/-- A zero after the name means that the token ends there. -/
theorem Ahead.eq_length (h : Ahead str t us left) {n : ℕ} (hn : n ≤ t.length)
    (hread : read (str.drop n) = some 0) : n = t.length := by
  rcases Nat.lt_or_eq_of_le hn with hlt | heq
  · rw [h.drop hn, List.drop_eq_getElem_cons hlt] at hread
    exact (h.nonzero (Option.some.inj hread ▸ List.getElem_mem hlt)).elim
  · exact heq

/-- The options after a token that may be a long one, and where the offset is then. -/
theorem Ahead.checkLong (h : Ahead str t us left) (hlen : 2 ≤ t.length) {head : Options}
    (hfit : LongFits str left head) : ∃ res off' head',
      batchCheckLongOption str t.length left off head = some (res, off', head') ∧
        List.Forall₂ Assigns head head' ∧ (off' = off + (t.length + 1) ∨ off' = off + left) := by
  induction head with
  | nil => exact ⟨_, _, _, rfl, .nil, .inl rfl⟩
  | cons opt next ih =>
      obtain ⟨m, hm, hfound⟩ := h.longMatches hlen opt
      unfold LongFits at hfit
      unfold batchCheckLongOption
      rw [hm] at hfit ⊢
      cases m with
      | none =>
          obtain ⟨res, off', next', hnext, hassigns, hoff⟩ := ih hfit
          dsimp only [Option.bind_eq_bind, Option.bind_some]
          rw [hnext]
          exact ⟨_, _, _, rfl, .cons (.inl rfl) hassigns, hoff⟩
      | some lflen =>
          obtain ⟨hvalid, hle, hroom⟩ := hfound lflen rfl
          have hoffset : ∃ off', longOffset str t.length lflen off opt = some off' ∧
              (off' = off + (t.length + 1) ∨ off' = off + left) := by
            unfold longOffset
            cases hpresence : opt.byPresence with
            | true => exact ⟨_, rfl, .inl rfl⟩
            | false =>
                rw [hpresence] at hroom hfit
                have hroom := hroom.resolve_left Bool.false_ne_true
                obtain ⟨v, rest, hdrop, hv⟩ := h.longValue hle hroom
                have hlength : strlen (str.drop (3 + lflen)) = some v.length := by
                  rw [hdrop, strlen_append hv]
                refine ⟨off + (lflen + 3 + v.length), by rw [hlength]; rfl, ?_⟩
                rcases hfit.resolve_left Bool.false_ne_true _ hlength with hend | ⟨hempty, hzero⟩
                · exact .inr (by rw [hend])
                · have hname := h.eq_length hle hzero
                  exact .inl (by omega)
          have hhandle : ∃ res opt', handleValue opt (str.drop (3 + lflen)) = some (res, opt') ∧
              res ≠ .notFound ∧ opt'.assigned = opt.assigned ∧ opt'.valueType = opt.valueType := by
            rcases hroom with hpresence | hroom
            · exact @handleValue_append [] [] _ _ (.inl hpresence)
            · obtain ⟨v, rest, hdrop, -⟩ := h.longValue hle hroom
              exact handleValue_append (.inr hdrop)
          obtain ⟨off', hoff', hoff⟩ := hoffset
          obtain ⟨res, opt', hres, -, hassigned, htype⟩ := hhandle
          dsimp only [Option.bind_eq_bind, Option.bind_some]
          rw [hoff', Option.bind_some, hres, Option.bind_some]
          exact ⟨_, _, _, rfl, .cons (assigns_assign hvalid hassigned htype) (assigns_refl next), hoff⟩

/-! ### Short options -/

/-- Where the offset may be after a short option: at the next token, or behind its value. -/
def Follows (us : List CString) (len off off' : ℕ) : Prop :=
  off' = off + (len + 1) ∨ ∃ u us', us = u :: us' ∧ off' = off + (len + 2 + u.length)

theorem follows_max {len off a b : ℕ} (ha : Follows us len off a) (hb : Follows us len off b) :
    Follows us len off (if b > a then b else a) := by
  split
  next => exact hb
  next => exact ha

/-- There is room when the tests do not say otherwise. -/
theorem of_noRoom (h : ¬ noRoom len left opt = true) :
    opt.isValid = false ∧ (opt.byPresence = true ∨ len + 2 < left) := by
  unfold noRoom at h
  cases hvalid : opt.isValid with
  | true =>
      rw [hvalid] at h
      exact (h rfl).elim
  | false =>
      rw [hvalid] at h
      refine ⟨rfl, ?_⟩
      cases hpresence : opt.byPresence with
      | true => exact .inl rfl
      | false =>
          rw [hpresence] at h
          have h : ¬ decide (len + 2 ≥ left) = true := h
          rw [decide_eq_true_eq] at h
          exact .inr (Nat.lt_of_not_le h)

/-- What is done when a short option is found. -/
theorem Ahead.shortFound (h : Ahead str t us left) (off : ℕ)
    (hroom : ¬ noRoom t.length left opt = true) : ∃ off' res opt',
      shortOffset str t.length off opt = some off' ∧
      handleValue opt (str.drop (1 + t.length)) = some (res, opt') ∧
      Follows us t.length off off' ∧ res ≠ .notFound ∧ Assigns opt (opt'.assign res) := by
  obtain ⟨hvalid, hroom⟩ := of_noRoom hroom
  unfold shortOffset
  cases hpresence : opt.byPresence with
  | true =>
      obtain ⟨res, opt', hres, hne, hassigned, htype⟩ := @handleValue_append [] []
        (str.drop (1 + t.length)) _ (.inl hpresence)
      exact ⟨_, res, opt', rfl, hres, .inl rfl, hne, assigns_assign hvalid hassigned htype⟩
  | false =>
      rw [hpresence] at hroom
      have hroom := hroom.resolve_left Bool.false_ne_true
      obtain ⟨u, us', hus, hdrop⟩ := h.next (by omega)
      obtain ⟨res, opt', hres, hne, hassigned, htype⟩ := @handleValue_append _ _ _ opt (.inr hdrop)
      refine ⟨off + (t.length + 2 + u.length), res, opt', ?_, hres, .inr ⟨u, us', hus, rfl⟩, hne,
        assigns_assign hvalid hassigned htype⟩
      rw [hdrop, strlen_append u.nonzero]
      rfl

/-- The tests for a whole short option read the token up to its end at most. -/
theorem Ahead.shortWholeMatches (h : Ahead str t us left) (hlen : 1 ≤ t.length)
    (hfit : ShortFits t.length left opt) : ∃ m, shortWholeMatches str t.length left opt = some m ∧
      (m = true → ¬ noRoom t.length left opt = true) := by
  unfold CommandLine.shortWholeMatches
  split
  next => exact ⟨false, rfl, fun hm => nomatch hm⟩
  next hroom =>
    obtain ⟨shortForm, hform⟩ := Option.isSome_iff_exists.mp (hfit.resolve_left hroom)
    rw [hform]
    dsimp only
    split
    next => exact ⟨false, rfl, fun hm => nomatch hm⟩
    next =>
      obtain ⟨res, hres⟩ := @strncmp_append _ _ (buffer us) (h.nonzero_drop 1)
        shortForm.nonzero t.length
      rw [h.drop hlen]
      change strncmp (t.drop 1 ++ 0 :: buffer us) shortForm.bytes t.length = _ at hres
      rw [hres]
      exact ⟨_, rfl, fun _ => hroom⟩

/-- So do the tests for a part of one. -/
theorem Ahead.shortPartialMatches (h : Ahead str t us left) (hlen : 1 ≤ t.length)
    (hfit : ShortFits t.length left opt) : ∃ m, shortPartialMatches str t.length left opt = some m ∧
      (m = true → ¬ noRoom t.length left opt = true) := by
  unfold CommandLine.shortPartialMatches
  split
  next => exact ⟨false, rfl, fun hm => nomatch hm⟩
  next hroom =>
    obtain ⟨shortForm, hform⟩ := Option.isSome_iff_exists.mp (hfit.resolve_left hroom)
    rw [hform]
    dsimp only
    split
    next c _ =>
      have hle : t.length - 1 ≤ (t.drop 1).length := Nat.le_of_eq List.length_drop.symm
      obtain ⟨m, hm⟩ := @memchr_append _ (0 :: buffer us) _ c hle
      rw [h.drop hlen, hm]
      exact ⟨m, rfl, fun _ => hroom⟩
    next => exact ⟨false, rfl, fun hm => nomatch hm⟩

/-- When no whole option is found the list is as it was, and all options have been looked at. -/
theorem Ahead.checkShortWhole (h : Ahead str t us left) (hlen : 1 ≤ t.length) {head : Options}
    (hfit : WholeFits str t.length left head) : ∃ res off' head',
      batchCheckShortWholeOption str t.length left off head = some (res, off', head') ∧
        List.Forall₂ Assigns head head' ∧ Follows us t.length off off' ∧
        (res = .notFound → head' = head ∧ ∀ opt ∈ head, ShortFits t.length left opt) := by
  induction head with
  | nil => exact ⟨_, _, _, rfl, .nil, .inl rfl, fun _ => ⟨rfl, fun _ hmem => nomatch hmem⟩⟩
  | cons opt next ih =>
      obtain ⟨hshort, hrest⟩ := hfit
      obtain ⟨m, hm, hroom⟩ := h.shortWholeMatches hlen hshort
      unfold batchCheckShortWholeOption
      rw [hm] at hrest ⊢
      cases m with
      | true =>
          obtain ⟨off', res, opt', hoff, hres, hfollows, hne, hassigns⟩ := h.shortFound off (hroom rfl)
          dsimp only [Option.bind_eq_bind, Option.bind_some]
          rw [if_pos rfl, hoff, Option.bind_some, hres, Option.bind_some]
          exact ⟨_, _, _, rfl, .cons hassigns (assigns_refl next), hfollows, fun heq => (hne heq).elim⟩
      | false =>
          have hrest := hrest.resolve_left fun heq => nomatch heq
          obtain ⟨res, off', next', hnext, hassigns, hfollows, hnone⟩ := ih hrest
          dsimp only [Option.bind_eq_bind, Option.bind_some]
          rw [if_neg Bool.false_ne_true, hnext, Option.bind_some]
          refine ⟨_, _, _, rfl, .cons (.inl rfl) hassigns, hfollows, fun heq => ?_⟩
          obtain ⟨rfl, hall⟩ := hnone heq
          exact ⟨rfl, List.forall_mem_cons.mpr ⟨hshort, hall⟩⟩

theorem Ahead.checkShortPartial (h : Ahead str t us left) (hlen : 1 ≤ t.length) {head : Options}
    (hfit : ∀ opt ∈ head, ShortFits t.length left opt) (optCnt : ℕ) : ∃ res off' head',
      batchCheckShortPartialOption str t.length left off head optCnt = some (res, off', head') ∧
        List.Forall₂ Assigns head head' ∧ Follows us t.length off off' := by
  induction head generalizing optCnt with
  | nil => exact ⟨_, _, _, rfl, .nil, .inl rfl⟩
  | cons opt next ih =>
      obtain ⟨hshort, hrest⟩ := List.forall_mem_cons.mp hfit
      obtain ⟨m, hm, hroom⟩ := h.shortPartialMatches hlen hshort
      unfold batchCheckShortPartialOption
      rw [hm]
      cases m with
      | true =>
          obtain ⟨off', res, opt', hoff, hres, hfollows, -, hassigns⟩ := h.shortFound off (hroom rfl)
          obtain ⟨res', off'', next', hnext, hassigns', hfollows'⟩ :=
            ih hrest (if res = .okay then optCnt + 1 else optCnt)
          dsimp only [Option.bind_eq_bind, Option.bind_some]
          rw [if_pos rfl, hoff, Option.bind_some, hres, Option.bind_some]
          dsimp only
          rw [hnext, Option.bind_some]
          exact ⟨_, _, _, rfl, .cons hassigns hassigns', follows_max hfollows hfollows'⟩
      | false =>
          obtain ⟨res, off', next', hnext, hassigns, hfollows⟩ := ih hrest optCnt
          dsimp only [Option.bind_eq_bind, Option.bind_some]
          rw [if_neg Bool.false_ne_true, hnext, Option.bind_some]
          refine ⟨_, _, _, rfl, .cons (.inl rfl) hassigns, ?_⟩
          -- The offset of the rest is never behind that of the token.
          have hgt : off' > off := by
            rcases hfollows with rfl | ⟨u, us', -, rfl⟩ <;> omega
          rw [if_pos hgt]
          exact hfollows

/-! ### Any option -/

/-- Where the offset may be after a token. -/
def Moves (us : List CString) (len left off off' : ℕ) : Prop :=
  off' = off + left ∨ Follows us len off off'

theorem Ahead.checkOption {t : List UInt8} (h : Ahead str (dash :: t) us left) {head : Options}
    (hfit : ∀ c, read (str.drop 1) = some c → if c = dash then LongFits str left head
      else if (dash :: t).length = 2 then ∀ opt ∈ head, ShortFits (dash :: t).length left opt
      else WholeFits str (dash :: t).length left head) :
    ∃ res off' head', checkOption str (dash :: t).length left off head = some (res, off', head') ∧
      List.Forall₂ Assigns head head' ∧ Moves us (dash :: t).length left off off' := by
  have hone : 1 ≤ (dash :: t).length := Nat.le_add_left 1 _
  have hdrop := h.drop hone
  have hc : ∃ c, read (str.drop 1) = some c ∧ (c = dash → 2 ≤ (dash :: t).length) := by
    rw [hdrop]
    cases t with
    | nil => exact ⟨0, rfl, fun heq => absurd heq (by decide)⟩
    | cons c t => exact ⟨c, rfl, fun _ => Nat.le_add_left 2 _⟩
  obtain ⟨c, hc, htwo⟩ := hc
  have hfit := hfit c hc
  unfold CommandLineOptionBatchState.checkOption
  rw [hc]
  dsimp only [Option.bind_eq_bind, Option.bind_some]
  split at hfit
  next hdash =>
    rw [if_pos hdash]
    obtain ⟨res, off', head', hcheck, hassigns, hoff⟩ :=
      @Ahead.checkLong _ _ _ off _ h (htwo hdash) _ hfit
    exact ⟨res, off', head', hcheck, hassigns, hoff.symm.imp_right .inl⟩
  next hdash =>
    rw [if_neg hdash]
    split at hfit
    next hlen =>
      rw [if_pos hlen]
      obtain ⟨res, off', head', hcheck, hassigns, hoff⟩ :=
        @Ahead.checkShortPartial _ _ _ off _ h hone _ hfit 0
      exact ⟨res, off', head', hcheck, hassigns, .inr hoff⟩
    next hlen =>
      rw [if_neg hlen]
      obtain ⟨res, off', head', hcheck, hassigns, hoff, hnone⟩ :=
        @Ahead.checkShortWhole _ _ _ off _ h hone _ hfit
      rw [hcheck, Option.bind_some]
      dsimp only
      split
      next hres =>
        obtain ⟨rfl, hall⟩ := hnone hres
        obtain ⟨res, off', head', hcheck, hassigns, hoff⟩ :=
          @Ahead.checkShortPartial _ _ _ off _ h hone _ hall 0
        exact ⟨res, off', head', hcheck, hassigns, .inr hoff⟩
      next => exact ⟨res, off', head', rfl, hassigns, .inr hoff⟩

/-! ## The tokens of a batch -/

/-- Where the token of this number begins. -/
def start (tokens : List CString) (k : ℕ) : ℕ := (buffer (tokens.take k)).length

variable {tokens : List CString} {k : ℕ}

theorem buffer_append (us vs : List CString) : buffer (us ++ vs) = buffer us ++ buffer vs := by
  unfold buffer
  rw [List.map_append]
  exact Second.joined_append _ _

theorem drop_start (tokens : List CString) (k : ℕ) :
    (buffer tokens).drop (start tokens k) = buffer (tokens.drop k) := by
  have hbuffer := buffer_append (tokens.take k) (tokens.drop k)
  rw [List.take_append_drop] at hbuffer
  rw [hbuffer]
  exact List.drop_left

theorem length_buffer (tokens : List CString) (k : ℕ) :
    (buffer tokens).length = start tokens k + (buffer (tokens.drop k)).length := by
  have hbuffer := buffer_append (tokens.take k) (tokens.drop k)
  rw [List.take_append_drop] at hbuffer
  rw [hbuffer]
  exact List.length_append

theorem length_ofTokens (h : tokens ≠ []) :
    (buffer tokens).length = (CommandLineOptionParser.ofTokens tokens).length + 1 :=
  joined_length_of_ne fun hnil => h (List.map_eq_nil_iff.mp hnil)

theorem start_succ {t : CString} {us : List CString} (h : tokens.drop k = t :: us) :
    start tokens (k + 1) = start tokens k + (t.length + 1) := by
  have hk := length_buffer tokens k
  have hsucc := length_buffer tokens (k + 1)
  have htail : tokens.drop (k + 1) = us := by rw [← List.tail_drop, h, List.tail_cons]
  rw [h, buffer_cons, List.length_append, List.length_cons] at hk
  rw [htail] at hsucc
  have ht : t.chars.length = t.length := rfl
  omega

theorem drop_eq_cons (hk : k < tokens.length) : ∃ t us, tokens.drop k = t :: us :=
  ⟨_, _, List.drop_eq_getElem_cons hk⟩

theorem start_le_succ (tokens : List CString) (k : ℕ) : start tokens k ≤ start tokens (k + 1) := by
  rcases Nat.lt_or_ge k tokens.length with hk | hk
  · obtain ⟨t, us, hdrop⟩ := drop_eq_cons hk
    rw [start_succ hdrop]
    exact Nat.le_add_right _ _
  · unfold start
    have heq : tokens.take k = tokens.take (k + 1) := by
      rw [List.take_of_length_le hk, List.take_of_length_le (Nat.le_succ_of_le hk)]
    exact Nat.le_of_eq (congrArg (fun ts => (buffer ts).length) heq)

theorem start_lt {k' : ℕ} (hk : k < tokens.length) (h : k < k') :
    start tokens k < start tokens k' := by
  induction h with
  | refl =>
      obtain ⟨t, us, hdrop⟩ := drop_eq_cons hk
      rw [start_succ hdrop]
      omega
  | step _ ih => exact Nat.lt_of_lt_of_le ih (start_le_succ tokens _)

theorem lt_of_start_lt (hne : tokens ≠ [])
    (h : start tokens k < (CommandLineOptionParser.ofTokens tokens).length) : k < tokens.length := by
  by_contra hle
  have hlength := length_ofTokens hne
  have hend : start tokens k = (buffer tokens).length := by
    unfold start
    rw [List.take_of_length_le (Nat.le_of_not_lt hle)]
  omega

/-- The token at such a place and what follows. -/
theorem ahead_start (hne : tokens ≠ []) {t : CString} {us : List CString}
    (h : tokens.drop k = t :: us) :
    Ahead (((CommandLineOptionParser.ofTokens tokens).inputString).drop (start tokens k)) t.chars us
      ((CommandLineOptionParser.ofTokens tokens).length - start tokens k) where
  str := by
    show (buffer tokens).drop (start tokens k) = _
    rw [drop_start, h, buffer_cons]
  nonzero := t.nonzero
  left := by
    have hlength := length_ofTokens hne
    have hk := length_buffer tokens k
    rw [h, buffer_cons, List.length_append, List.length_cons] at hk
    omega

/-- The loop comes to the beginning of a token with a dash, or to the end. -/
theorem seek_start (hne : tokens ≠ []) {rounds : ℕ} (hpos : 0 < rounds)
    (hrounds : (CommandLineOptionParser.ofTokens tokens).length < start tokens k + rounds) :
    ∃ i, seek (CommandLineOptionParser.ofTokens tokens) rounds (start tokens k) = some i ∧
      (i + 1 < (CommandLineOptionParser.ofTokens tokens).length → ∃ k' u us, k ≤ k' ∧
        i = start tokens k' ∧ tokens.drop k' = u :: us ∧ ∃ t, u.chars = dash :: t) := by
  induction rounds generalizing k with
  | zero => exact (Nat.lt_irrefl 0 hpos).elim
  | succ rounds ih =>
      unfold seek
      split
      next hlt =>
        obtain ⟨u, us, hdrop⟩ := drop_eq_cons (lt_of_start_lt hne (Nat.lt_of_succ_lt hlt))
        have hahead := ahead_start hne hdrop
        have hlen : strlen (((CommandLineOptionParser.ofTokens tokens).inputString).drop
            (start tokens k)) = some u.length := by
          rw [hahead.str, strlen_append u.nonzero]
          rfl
        have hread : ∃ c, read (((CommandLineOptionParser.ofTokens tokens).inputString).drop
            (start tokens k)) = some c ∧ (c = dash → ∃ t, u.chars = dash :: t) := by
          rw [hahead.str]
          cases hu : u.chars with
          | nil => exact ⟨0, rfl, fun heq => absurd heq (by decide)⟩
          | cons c t => exact ⟨c, rfl, fun heq => ⟨t, by rw [heq]⟩⟩
        obtain ⟨c, hc, hdash⟩ := hread
        rw [hlen, hc]
        dsimp only [Option.bind_eq_bind, Option.bind_some]
        split
        next =>
          have hsucc := start_succ hdrop
          rw [← hsucc]
          obtain ⟨i, hi, hfound⟩ := ih (k := k + 1) (by omega) (by omega)
          refine ⟨i, hi, fun hlt => ?_⟩
          obtain ⟨k', u', us', hle, hrest⟩ := hfound hlt
          exact ⟨k', u', us', Nat.le_of_succ_le hle, hrest⟩
        next heq =>
          exact ⟨_, rfl, fun _ => ⟨k, u, us, Nat.le_refl k, rfl, hdrop, hdash (not_not.mp heq)⟩⟩
      next hend => exact ⟨_, rfl, fun hlt => (hend hlt).elim⟩

/-! ## One call -/

variable {b : CommandLineOptionBatchState} {n : ℕ}

/-- Where the offset may be after a call: the call has ended the search, or it is at the beginning
of a later token. -/
theorem Moves.next (hne : tokens ≠ []) {t : CString} {us : List CString}
    (hdrop : tokens.drop k = t :: us) {off' : ℕ}
    (h : Moves us t.length ((CommandLineOptionParser.ofTokens tokens).length - start tokens k)
      (start tokens k) off') (hlt : off' < (CommandLineOptionParser.ofTokens tokens).length) :
    ∃ k', k < k' ∧ k' < tokens.length ∧ off' = start tokens k' := by
  have hsucc := start_succ hdrop
  rcases h with hend | heq | ⟨u, us', rfl, heq⟩
  · omega
  · rw [heq, ← hsucc] at hlt
    exact ⟨k + 1, Nat.lt_succ_self k, lt_of_start_lt hne hlt, heq.trans hsucc.symm⟩
  · have hdrop' : tokens.drop (k + 1) = u :: us' := by rw [← List.tail_drop, hdrop, List.tail_cons]
    have hsucc' : start tokens (k + 2) = _ := start_succ hdrop'
    have hoff : off' = start tokens (k + 2) := by omega
    rw [hoff] at hlt
    exact ⟨k + 2, by omega, lt_of_start_lt hne hlt, hoff⟩

/-- A call in progress ends the search or moves the offset to a later token, and assigns to options
without a result. -/
theorem batchInnerNext_start (hne : tokens ≠ [])
    (hparser : b.parser = CommandLineOptionParser.ofTokens tokens)
    (hoffset : b.offset = start tokens k) (hfit : Fit b) :
    ∃ b', b.batchInnerNext = some b' ∧ b'.parser = b.parser ∧
      List.Forall₂ Assigns b.head b'.head ∧ (b'.step = .wrappingUp ∨ b'.step = .inProgress ∧
        ∃ k', k < k' ∧ k' < tokens.length ∧ b'.offset = start tokens k') := by
  obtain ⟨parser, head, offset, step, result⟩ := b
  subst hparser hoffset
  obtain ⟨i, hi, hfound⟩ := seek_start (k := k) hne
    (Nat.succ_pos (CommandLineOptionParser.ofTokens tokens).length) (by omega)
  have hfit := fun hlt c len => hfit i c len hi hlt
  unfold batchInnerNext
  dsimp only at hi hfit ⊢
  rw [hi]
  dsimp only [Option.bind_eq_bind, Option.bind_some]
  split
  next hlt =>
    obtain ⟨k', u, us, hle, rfl, hdrop, t, ht⟩ := hfound hlt
    have hahead := ahead_start hne hdrop
    have hlen := hahead.str ▸ @strlen_append _ (buffer us) u.nonzero
    have hfit := fun c hc => hfit hlt c u.chars.length hc hlen
    rw [ht] at hahead hlen hfit
    obtain ⟨res, off', head', hcheck, hassigns, hmoves⟩ :=
      @Ahead.checkOption _ _ (start tokens k') _ _ hahead _ hfit
    rw [← ht] at hcheck hmoves hlen
    rw [hlen, Option.bind_some, hcheck, Option.bind_some]
    refine ⟨_, rfl, rfl, hassigns, ?_⟩
    dsimp only
    split
    next => exact .inl rfl
    next hend =>
      obtain ⟨k'', hlt', hrest⟩ := Moves.next hne hdrop hmoves (Nat.lt_of_not_le hend)
      exact .inr ⟨rfl, k'', Nat.lt_of_le_of_lt hle hlt', hrest⟩
  next => exact ⟨_, rfl, rfl, assigns_refl head, .inl rfl⟩

/-! ## The invariant -/

/-- An option without a result has no assignment yet. -/
def Once (opt : CommandLineOptionSpecification) : Prop :=
  opt.assigned ≤ if opt.isValid then 1 else 0

theorem Assigns.once (h : Assigns opt opt') (hopt : Once opt) : Once opt' := by
  rcases h with rfl | ⟨hinvalid, hvalid, hassigned, -⟩
  · exact hopt
  · unfold Once at hopt ⊢
    rw [hinvalid] at hopt
    rw [hvalid, hassigned]
    exact Nat.succ_le_succ hopt

theorem once_of_assigns {head head' : Options} (h : List.Forall₂ Assigns head head')
    (hhead : ∀ opt ∈ head, Once opt) : ∀ opt ∈ head', Once opt := by
  induction h with
  | nil => exact hhead
  | cons hopt _ ih =>
      obtain ⟨hfirst, hrest⟩ := List.forall_mem_cons.mp hhead
      exact List.forall_mem_cons.mpr ⟨hopt.once hfirst, ih hrest⟩

/-- The end of a batch gives each option that is there or not a result. -/
theorem once_wrapUpOption {head : Options} (h : ∀ opt ∈ head, Once opt) :
    ∀ opt ∈ wrapUpOption head, Once opt ∧ (opt.byPresence = true → opt.isValid = true) := by
  induction head with
  | nil => exact fun _ hmem => nomatch hmem
  | cons opt next ih =>
      obtain ⟨hopt, hnext⟩ := List.forall_mem_cons.mp h
      refine List.forall_mem_cons.mpr ⟨?_, ih hnext⟩
      cases hpresence : opt.byPresence with
      | false =>
          rw [Bool.false_and, if_neg Bool.false_ne_true]
          exact ⟨hopt, fun heq => absurd (hpresence.symm.trans heq) Bool.false_ne_true⟩
      | true =>
          cases hvalid : opt.isValid with
          | true =>
              show Once opt ∧ _
              exact ⟨hopt, fun _ => hvalid⟩
          | false =>
              unfold Once at hopt
              rw [hvalid] at hopt
              exact ⟨Nat.succ_le_succ hopt, fun _ => rfl⟩

/-- What holds after so many calls. -/
structure Inv (tokens : List CString) (n : ℕ) (b : CommandLineOptionBatchState) : Prop where
  parser : b.parser = CommandLineOptionParser.ofTokens tokens
  once : ∀ opt ∈ b.head, Once opt
  going : b.step = .starting ∨ b.step = .inProgress →
    ∃ k, n ≤ k ∧ k < tokens.length ∧ b.offset = start tokens k
  wrapping : b.step = .wrappingUp → n ≤ tokens.length
  presence : b.step = .finished → ∀ opt ∈ b.head, opt.byPresence = true → opt.isValid = true

theorem inv_startBatch (hne : tokens ≠ []) (head : Options) :
    Inv tokens 0 ((CommandLineOptionParser.ofTokens tokens).startBatch head) where
  parser := rfl
  once := by
    intro opt hopt
    obtain ⟨opt', -, rfl⟩ := List.mem_map.mp hopt
    exact Nat.zero_le _
  going _ := ⟨0, Nat.le_refl 0, List.length_pos_iff.mpr hne, rfl⟩
  wrapping h := nomatch h
  presence h := nomatch h

/-- One call.  In progress the offset moves on, or the batch is about to wrap up. -/
theorem Inv.next (hne : tokens ≠ []) (h : Inv tokens n b) (hfit : Fit b) :
    ∃ b', b.next = some b' ∧ Inv tokens (n + 1) b' ∧ (b.step = .starting ∨ b.step = .inProgress →
      b'.step = .wrappingUp ∨ b.offset < b'.offset ∧ IsStart tokens b'.offset) := by
  have hgo : b.step = .starting ∨ b.step = .inProgress → ∃ b', b.batchInnerNext = some b' ∧
      Inv tokens (n + 1) b' ∧
      (b'.step = .wrappingUp ∨ b.offset < b'.offset ∧ IsStart tokens b'.offset) := by
    intro hgoing
    obtain ⟨k, hn, hk, hoffset⟩ := h.going hgoing
    obtain ⟨b', hb', hparser, hassigns, hstep⟩ := batchInnerNext_start hne h.parser hoffset hfit
    refine ⟨b', hb', ⟨hparser.trans h.parser, once_of_assigns hassigns h.once, ?_, ?_, ?_⟩, ?_⟩
    · intro hgoing'
      rcases hstep with hwrap | ⟨-, k', hlt, hk', hoffset'⟩
      · rw [hwrap] at hgoing'
        exact hgoing'.elim (fun h => nomatch h) (fun h => nomatch h)
      · exact ⟨k', by omega, hk', hoffset'⟩
    · exact fun _ => by omega
    · intro hfinished
      rcases hstep with hwrap | ⟨hgoing', -⟩
      · exact nomatch hwrap.symm.trans hfinished
      · exact nomatch hgoing'.symm.trans hfinished
    · refine hstep.imp_right ?_
      rintro ⟨-, k', hlt, hk', hoffset'⟩
      rw [hoffset, hoffset']
      exact ⟨start_lt hk hlt, k', hk', rfl⟩
  unfold CommandLineOptionBatchState.next
  cases hstep : b.step with
  | starting =>
      obtain ⟨b', hb', hinv, hmoves⟩ := hgo (.inl hstep)
      exact ⟨b', hb', hinv, fun _ => hmoves⟩
  | inProgress =>
      obtain ⟨b', hb', hinv, hmoves⟩ := hgo (.inr hstep)
      exact ⟨b', hb', hinv, fun _ => hmoves⟩
  | wrappingUp =>
      have hhead := once_wrapUpOption h.once
      refine ⟨_, rfl, ⟨h.parser, fun opt hopt => (hhead opt hopt).1, ?_, ?_, ?_⟩, ?_⟩
      · exact fun hgoing => hgoing.elim (fun h => nomatch h) (fun h => nomatch h)
      · exact fun hwrap => nomatch hwrap
      · exact fun _ opt hopt => (hhead opt hopt).2
      · exact fun hgoing => hgoing.elim (fun h => nomatch h) (fun h => nomatch h)
  | finished =>
      refine ⟨_, rfl, ⟨h.parser, h.once, ?_, ?_, fun _ => h.presence hstep⟩, ?_⟩
      · exact fun hgoing => hgoing.elim (fun h => nomatch h) (fun h => nomatch h)
      · exact fun hwrap => nomatch hwrap
      · exact fun hgoing => hgoing.elim (fun h => nomatch h) (fun h => nomatch h)

theorem Inv.behaves (hne : tokens ≠ []) (h : Inv tokens n b) (hfit : Fit b) :
    Behaves tokens n b where
  advances := by
    intro hgoing b' hb'
    obtain ⟨b'', hb'', -, hmoves⟩ := h.next hne hfit
    obtain rfl : b'' = b' := Option.some.inj (hb''.symm.trans hb')
    exact (hmoves hgoing).imp_right fun hmove => ⟨hmove.1, .inl hmove.2⟩
  once := by
    intro opt hopt
    refine Nat.le_trans (h.once opt hopt) ?_
    split
    next => exact Nat.le_refl 1
    next => exact Nat.zero_le 1
  ends := by
    intro hn
    have hcount : b.parser.tokenCount = tokens.length := by rw [h.parser]; rfl
    rw [hcount] at hn
    have hgoing : ¬ (b.step = .starting ∨ b.step = .inProgress) := by
      intro hgoing
      obtain ⟨k, hle, hlt, -⟩ := h.going hgoing
      omega
    cases hstep : b.step with
    | starting => exact (hgoing (.inl hstep)).elim
    | inProgress => exact (hgoing (.inr hstep)).elim
    | wrappingUp =>
        have hwrap := h.wrapping hstep
        omega
    | finished => rfl
  presence := h.presence

/-! ## Runs -/

/-- When the condition is met before each call, the calls behave as they should. -/
theorem calls_behave (hne : tokens ≠ []) (head : Options)
    (hfit : ∀ n b, ((CommandLineOptionParser.ofTokens tokens).startBatch head).calls n = some b →
      Fit b) (n : ℕ) :
    ∃ b, ((CommandLineOptionParser.ofTokens tokens).startBatch head).calls n = some b ∧
      Behaves tokens n b := by
  have hinv : ∃ b, ((CommandLineOptionParser.ofTokens tokens).startBatch head).calls n = some b ∧
      Inv tokens n b := by
    induction n with
    | zero => exact ⟨_, rfl, inv_startBatch hne head⟩
    | succ n ih =>
        obtain ⟨b, hb, hinv⟩ := ih
        obtain ⟨b', hb', hinv', -⟩ := hinv.next hne (hfit n b hb)
        refine ⟨b', ?_, hinv'⟩
        show (((CommandLineOptionParser.ofTokens tokens).startBatch head).calls n).bind _ = _
        rw [hb]
        exact hb'
  obtain ⟨b, hb, hinv⟩ := hinv
  exact ⟨b, hb, hinv.behaves hne (hfit n b hb)⟩

/-- The token `-a`. -/
def dashA : CString := ⟨[0x2D, 0x61], by decide⟩

/-- An option by presence. -/
def presenceOption (shortForm longForm : Option CString) : CommandLineOptionSpecification where
  shortForm := shortForm
  longForm := longForm
  valueType := .booleanByPresence
  parsingResult := none
  value := .null
  assigned := 0

/-- The condition is met where no token is left. -/
theorem fit_of_end {i : ℕ} (hseek : seek b.parser (b.parser.length + 1) b.offset = some i)
    (hend : b.parser.length ≤ i + 1) : Fit b := by
  intro i' c len hi' hlt
  obtain rfl : i = i' := Option.some.inj (hseek.symm.trans hi')
  exact (Nat.lt_irrefl _ (Nat.lt_of_lt_of_le hlt hend)).elim

/-- One token and its option: three calls. -/
theorem calls_behave_short : ∃ b, ((CommandLineOptionParser.ofTokens [dashA]).startBatch
    [presenceOption (some ⟨[0x61], by decide⟩) none]).calls 3 = some b ∧
      Behaves [dashA] 3 b := by
  refine calls_behave (List.cons_ne_nil _ _) _ (fun n b hb => ?_) 3
  have hlast : ∀ n, ∃ b, ((CommandLineOptionParser.ofTokens [dashA]).startBatch
      [presenceOption (some ⟨[0x61], by decide⟩) none]).calls (n + 3) = some b ∧
        b.next = some b ∧ Fit b := by
    intro n
    induction n with
    | zero => exact ⟨_, rfl, rfl, fit_of_end rfl (by decide)⟩
    | succ n ih =>
        obtain ⟨b, hb, hnext, hfit⟩ := ih
        exact ⟨b, (congrArg (Option.bind · next) hb).trans hnext, hnext, hfit⟩
  match n with
  | 0 =>
      obtain rfl := Option.some.inj hb
      intro i c len hi _ hc hlen
      obtain rfl : 0 = i := Option.some.inj hi
      obtain rfl : 0x61 = c := Option.some.inj hc
      obtain rfl : 2 = len := Option.some.inj hlen
      intro opt hopt
      obtain rfl := List.mem_singleton.mp hopt
      exact .inr rfl
  | 1 =>
      obtain rfl := Option.some.inj hb
      exact fit_of_end rfl (by decide)
  | 2 =>
      obtain rfl := Option.some.inj hb
      exact fit_of_end rfl (by decide)
  | n + 3 =>
      obtain ⟨b', hb', -, hfit⟩ := hlast n
      obtain rfl : b' = b := Option.some.inj (hb'.symm.trans hb)
      exact hfit

/-- An option without a short form, and a token with one dash: the null form is read. -/
theorem calls_null : ¬ ∀ tokens : List CString, tokens ≠ [] → ∀ (head : Options) (n : ℕ),
    ∃ b, ((CommandLineOptionParser.ofTokens tokens).startBatch head).calls n = some b ∧
      Behaves tokens n b := by
  intro hclaim
  obtain ⟨b, hb, -⟩ := hclaim [dashA] (List.cons_ne_nil _ _)
    [presenceOption none (some ⟨[0x61], by decide⟩)] 1
  cases hb

end Beelzebub.CommandLine
