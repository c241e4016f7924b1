import Beelzebub.CommandLine.Batch

/-!
# Looking up a single option

`ParseOption` goes over the buffer from token to token.  Where a token with two dashes is not the
long form, it moves on by the length of that form in place of the length of the token.

What it should find is said by a search over the list of tokens.
-/

namespace Beelzebub.CommandLine

open Strings

/-! ## The code -/

/-- How a round of the loop ends. -/
inductive Round where
  | found (value : Pointer)
  | next (i : ℕ)
  | stop

namespace CommandLineOptionParser

variable (parser : CommandLineOptionParser) (opt : CommandLineOptionSpecification)

/-- There is no room for a value behind so many characters. -/
def lacksRoom (i len : ℕ) : Bool := !opt.byPresence && decide (i + 2 + len ≥ parser.length)

/-- The tests for the short form. -/
def shortHit (shortForm : CString) (str : Pointer) (len : ℕ) : Option Bool :=
  match shortForm.chars with
  | [c] => memchr (str.drop 1) c (len - 1)
  | _ => (strncmp (str.drop 1) shortForm.bytes len).map (· == 0)

/-- The round for a token with one dash. -/
def shortRound (shortForm : CString) (str : Pointer) (i len : ℕ) : Option Round :=
  if parser.lacksRoom opt i len then some .stop
  else do
    let hit ← shortHit shortForm str len
    if hit then some (.found (str.drop (1 + len))) else some (.next (i + (len + 1)))

/-- The round for a token with two dashes.  The length is that of the long form from here on. -/
def longRound (longForm : CString) (str : Pointer) (i : ℕ) : Option Round :=
  let len := longForm.length
  if parser.lacksRoom opt i len then some .stop
  else do
    let res ← strncmp (str.drop 2) longForm.bytes len
    if res ≠ 0 then some (.next (i + (len + 1)))
    else
      let c ← read (str.drop (2 + len))
      if c ≠ 0 ∧ c ≠ equals then some (.next (i + (len + 1)))
      else some (.found (str.drop (3 + len)))

/-- The body of the loop. -/
def round (i : ℕ) : Option Round := do
  let str := parser.inputString.drop i
  let len ← strlen str
  let c ← read str
  if c ≠ dash then some (.next (i + (len + 1)))
  else
    let c' ← read (str.drop 1)
    if c' ≠ dash then
      match opt.shortForm with
      | some shortForm => parser.shortRound opt shortForm str i len
      | none => some (.next (i + (len + 1)))
    else
      match opt.longForm with
      | some longForm => parser.longRound opt longForm str i
      | none => some (.next (i + (len + 1)))

/-- The loop: the positions it looked at, and where the value is if the option was found.  A loop
that takes too many rounds has no result. -/
def search : ℕ → ℕ → Option (List ℕ × Option Pointer)
  | 0, _ => none
  | rounds + 1, i =>
      if i + 1 < parser.length then do
        match ← parser.round opt i with
        | .found value => some ([i], some value)
        | .stop => some ([i], none)
        | .next i' => (search rounds i').map fun x => (i :: x.1, x.2)
      else some ([], none)

end CommandLineOptionParser

/-- What `ParseOption` did.  The first two fields are only for the record. -/
structure Lookup where
  examined : List ℕ
  found : Option Pointer
  result : HandleResult
  option : CommandLineOptionSpecification

/-- What follows the loop. -/
def conclude (opt : CommandLineOptionSpecification) (examined : List ℕ) :
    Option Pointer → Option Lookup
  | some value =>
      (handleValue opt value).map fun x => ⟨examined, some value, x.1, x.2.assign x.1⟩
  | none =>
      some ⟨examined, none, .okay,
        (if opt.byPresence then { opt with value := .boolean false } else opt).assign .okay⟩

def CommandLineOptionParser.parseOption (parser : CommandLineOptionParser)
    (opt : CommandLineOptionSpecification) : Option Lookup :=
  if opt.parsingResult = some .okay then some ⟨[], none, .okay, opt⟩
  else
    (parser.search opt (parser.length + 1) 0).bind fun x => conclude opt x.1 x.2

/-! ## The reference search -/

/-- A token with two dashes, or with one. -/
inductive Dashes where
  | none
  | one (body : List UInt8)
  | two (body : List UInt8)

def dashes (t : CString) : Dashes :=
  match t.chars with
  | [] => .none
  | [c] => if c = dash then .one [] else .none
  | c :: c' :: body =>
      if c = dash then if c' = dash then .two body else .one (c' :: body) else .none

/-- The next token as the value, if one is needed. -/
def nextToken (opt : CommandLineOptionSpecification) (us : List CString) : Option Pointer :=
  if opt.byPresence = false ∧ us = [] then none else some (buffer us)

/-- The short form, or a group with the letter. -/
def TakesShort (shortForm : CString) (body : List UInt8) : Prop :=
  match shortForm.chars with
  | [c] => c ∈ body
  | chars => body = chars

instance (shortForm : CString) (body : List UInt8) : Decidable (TakesShort shortForm body) := by
  unfold TakesShort
  split <;> infer_instance

/-- The value of the option in a token, when it is there. -/
def valueOf (opt : CommandLineOptionSpecification) (t : CString) (us : List CString) :
    Option Pointer :=
  match dashes t with
  | .none => none
  | .one body => opt.shortForm.bind fun f => if TakesShort f body then nextToken opt us else none
  | .two body =>
      opt.longForm.bind fun f =>
        if body = f.chars then nextToken opt us
        else if f.chars ++ [equals] <+: body then
          some (body.drop (f.length + 1) ++ 0 :: buffer us)
        else none

/-- The value of the option in the first token that has it. -/
def lookup (opt : CommandLineOptionSpecification) : List CString → Option Pointer
  | [] => none
  | t :: us => (valueOf opt t us).or (lookup opt us)

/-! ## What is asked -/

/-- Where the tokens begin, when the first one does at `i`. -/
def startsFrom : ℕ → List CString → List ℕ
  | _, [] => []
  | i, t :: us => i :: startsFrom (i + (t.length + 1)) us

/-- Only tokens are looked at, one after the other, and what is found is what the reference search
finds. -/
def SeesTokens (tokens : List CString) (opt : CommandLineOptionSpecification) : Prop :=
  opt.parsingResult ≠ some .okay →
    ∃ l, (CommandLineOptionParser.ofTokens tokens).parseOption opt = some l ∧
      conclude opt l.examined (lookup opt tokens) = some l ∧ l.examined <+: startsFrom 0 tokens

/-! ## The condition -/

/-- The characters from a token on, up to the last zero. -/
def remaining (t : CString) (us : List CString) : ℕ := t.length + (buffer us).length

/-- The search is broken off for want of room: behind a token with one dash there is one character
at most, or the long form is too long for what is left. -/
def Stops (opt : CommandLineOptionSpecification) (t : CString) (us : List CString) : Prop :=
  opt.byPresence = false ∧
    match dashes t with
    | .none => False
    | .one _ => opt.shortForm ≠ none ∧ (buffer us).length ≤ 2
    | .two _ => ∃ f, opt.longForm = some f ∧ remaining t us ≤ f.length + 2

/-- The token is taken for the option.  An empty long form takes no value. -/
def Hits (opt : CommandLineOptionSpecification) (t : CString) : Prop :=
  match dashes t with
  | .none => False
  | .one body => ∃ f, opt.shortForm = some f ∧ TakesShort f body
  | .two body => ∃ f, opt.longForm = some f ∧
      (body = f.chars ∨ f.chars ≠ [] ∧ f.chars ++ [equals] <+: body)

/-- The length that the search moves on by: at a token with two dashes, that of the long form. -/
def stride (opt : CommandLineOptionSpecification) (t : CString) : ℕ :=
  match dashes t, opt.longForm with
  | .two _, some f => f.length
  | _, _ => t.length

/-- Where the search ends nothing is left to find, and it moves on by the length of the token, or
past the end when nothing is left to find behind the token. -/
def Seen (opt : CommandLineOptionSpecification) : List CString → Prop
  | [] => True
  | t :: us =>
      (remaining t us < 2 ∨ Stops opt t us → lookup opt (t :: us) = none) ∧
        (¬(remaining t us < 2 ∨ Stops opt t us) → Hits opt t ∨
          valueOf opt t us = none ∧
            (stride opt t = t.length ∧ Seen opt us ∨
              remaining t us ≤ stride opt t + 2 ∧ lookup opt us = none))

/-! ## One token -/

variable {opt : CommandLineOptionSpecification} {t : CString} {us : List CString} {str : Pointer}
  {body : List UInt8}

theorem chars_of_none (h : dashes t = .none) : t.chars.head? ≠ some dash := by
  unfold dashes at h
  split at h
  next heq =>
    rw [heq]
    exact nofun
  next c heq =>
    rw [heq]
    intro hc
    rw [if_pos (Option.some.inj hc)] at h
    exact nomatch h
  next c c' body heq =>
    rw [heq]
    intro hc
    rw [if_pos (Option.some.inj hc)] at h
    split at h <;> exact nomatch h

theorem chars_of_one (h : dashes t = .one body) :
    t.chars = dash :: body ∧ body.head? ≠ some dash := by
  unfold dashes at h
  split at h
  next => exact nomatch h
  next c heq =>
    split at h
    next hc =>
      cases h
      exact ⟨hc ▸ heq, nofun⟩
    next => exact nomatch h
  next c c' rest heq =>
    split at h
    next hc =>
      split at h
      next => exact nomatch h
      next hc' =>
        cases h
        exact ⟨hc ▸ heq, fun h => hc' (Option.some.inj h)⟩
    next => exact nomatch h

theorem chars_of_two (h : dashes t = .two body) : t.chars = dash :: dash :: body := by
  unfold dashes at h
  split at h
  next => exact nomatch h
  next => split at h <;> exact nomatch h
  next c c' rest heq =>
    split at h
    next hc =>
      split at h
      next hc' =>
        cases h
        rw [heq, hc, hc']
      next => exact nomatch h
    next => exact nomatch h

theorem read_append (t : List UInt8) (us : List CString) :
    read (t ++ 0 :: buffer us) = some (t.head?.getD 0) := by
  cases t <;> rfl

theorem nextToken_isSome (h : opt.byPresence = false → us ≠ []) :
    nextToken opt us = some (buffer us) :=
  if_neg fun hnone => h hnone.1 hnone.2

/-- A comparison as the code has it. -/
theorem strncmp_beq {f rest : List UInt8} {len : ℕ} {p : Prop} [Decidable p] (hbody : 0 ∉ body)
    (hf : 0 ∉ f) (h : strncmp (body ++ 0 :: rest) (f ++ [0]) len = some 0 ↔ p) :
    (strncmp (body ++ 0 :: rest) (f ++ [0]) len).map (· == 0) = some (decide p) := by
  obtain ⟨res, hres⟩ := @strncmp_append _ _ rest hbody hf len
  rw [hres] at h ⊢
  refine congrArg some ?_
  rw [Bool.eq_iff_iff, beq_iff_eq, decide_eq_true_iff, ← h]
  exact Option.some_inj.symm

theorem shortHit_eq (hbody : 0 ∉ body) (f : CString) (rest : List UInt8)
    (hdrop : str.drop 1 = body ++ 0 :: rest) :
    CommandLineOptionParser.shortHit f str (body.length + 1) =
      some (decide (TakesShort f body)) := by
  obtain ⟨chars, hf⟩ := f
  unfold CommandLineOptionParser.shortHit
  rw [hdrop]
  match chars with
  | [] => exact strncmp_beq hbody hf (strncmp_whole hbody hf)
  | [c] => exact memchr_all body (0 :: rest) c
  | c :: c' :: chars => exact strncmp_beq hbody hf (strncmp_whole hbody hf)

namespace CommandLineOptionParser

variable {parser : CommandLineOptionParser} {i : ℕ}

theorem lacksRoom_iff {len left : ℕ} (hleft : left + i = parser.length) :
    parser.lacksRoom opt i len = true ↔ opt.byPresence = false ∧ left ≤ len + 2 := by
  unfold lacksRoom
  rw [Bool.and_eq_true, Bool.not_eq_true', decide_eq_true_iff]
  exact and_congr_right' (by omega)

/-- The round for a token with one dash. -/
theorem shortRound_eq (h : Ahead str t.chars us (remaining t us))
    (hleft : remaining t us + i = parser.length) (hbody : t.chars = dash :: body) (f : CString) :
    parser.shortRound opt f str i t.length =
      if opt.byPresence = false ∧ (buffer us).length ≤ 2 then some .stop
      else if TakesShort f body then some (.found (buffer us))
      else some (.next (i + (t.length + 1))) := by
  have hroom : parser.lacksRoom opt i t.length = true ↔
      opt.byPresence = false ∧ (buffer us).length ≤ 2 := by
    rw [lacksRoom_iff hleft]
    exact and_congr_right' (by unfold remaining; omega)
  have hlen : t.length = body.length + 1 := congrArg List.length hbody
  have hdrop : str.drop 1 = body ++ 0 :: buffer us := by
    rw [h.str, hbody]
    rfl
  have hzero : 0 ∉ body := fun hmem => t.nonzero (hbody ▸ List.mem_cons_of_mem _ hmem)
  unfold shortRound
  rw [if_congr hroom rfl rfl]
  by_cases hstop : opt.byPresence = false ∧ (buffer us).length ≤ 2
  · rw [if_pos hstop, if_pos hstop]
  · rw [if_neg hstop, if_neg hstop, hlen, shortHit_eq hzero f (buffer us) hdrop, ← hlen]
    have hvalue : str.drop (1 + t.length) = buffer us := h.drop_succ
    rw [hvalue]
    by_cases htakes : TakesShort f body
    · rw [if_pos htakes]
      exact if_pos (decide_eq_true htakes)
    · rw [if_neg htakes]
      exact if_neg fun h => htakes (of_decide_eq_true h)

/-- The round for a token with two dashes. -/
theorem longRound_eq (h : Ahead str t.chars us (remaining t us))
    (hleft : remaining t us + i = parser.length) (hbody : t.chars = dash :: dash :: body)
    (f : CString) :
    parser.longRound opt f str i =
      if opt.byPresence = false ∧ remaining t us ≤ f.length + 2 then some .stop
      else if body = f.chars then some (.found (buffer us))
      else if f.chars ≠ [] ∧ f.chars ++ [equals] <+: body then
        some (.found (body.drop (f.length + 1) ++ 0 :: buffer us))
      else some (.next (i + (f.length + 1))) := by
  have hlen : t.length = body.length + 2 := congrArg List.length hbody
  have hstr : str = dash :: dash :: (body ++ 0 :: buffer us) := by
    rw [h.str, hbody]
    rfl
  have hzero : 0 ∉ body := fun hmem =>
    t.nonzero (hbody ▸ List.mem_cons_of_mem _ (List.mem_cons_of_mem _ hmem))
  unfold longRound
  rw [if_congr (lacksRoom_iff hleft) rfl rfl]
  by_cases hstop : opt.byPresence = false ∧ remaining t us ≤ f.length + 2
  · rw [if_pos hstop, if_pos hstop]
  · rw [if_neg hstop, if_neg hstop]
    obtain ⟨res, hres⟩ := @strncmp_append body f.chars (buffer us) hzero f.nonzero f.length
    have hdrop : str.drop 2 = body ++ 0 :: buffer us := by rw [hstr]; rfl
    rw [hdrop]
    change strncmp (body ++ 0 :: buffer us) f.bytes f.length = some res at hres
    rw [hres]
    dsimp only [Option.bind_eq_bind, Option.bind_some]
    have hzeroIff : res = 0 ↔ f.chars <+: body ∧ (f.chars = [] → body = []) := by
      rw [← Option.some_inj, ← hres]
      by_cases hf : f.chars = []
      · have hempty : strncmp (body ++ 0 :: buffer us) f.bytes f.length =
            strncmp (body ++ 0 :: buffer us) [0] 0 := by
          unfold CString.bytes CString.length
          rw [hf]
          rfl
        rw [hempty, strncmp_empty hzero, hf]
        exact ⟨fun h => ⟨List.nil_prefix, fun _ => h⟩, fun h => h.2 rfl⟩
      · refine (strncmp_starts hzero f.nonzero hf).trans ?_
        exact ⟨fun h => ⟨h, fun h => absurd h hf⟩, fun h => h.1⟩
    by_cases hres0 : res = 0
    · obtain ⟨⟨r, hr⟩, hempty⟩ := hzeroIff.mp hres0
      rw [if_neg (not_not_intro hres0)]
      have hskip (n : ℕ) : str.drop (2 + f.length + n) = (r ++ 0 :: buffer us).drop n := by
        rw [hstr, ← hr, Nat.add_assoc, ← List.drop_drop, List.append_assoc, ← List.drop_drop]
        exact congrArg (List.drop n) List.drop_left
      have hread : read (str.drop (2 + f.length)) = some (r.head?.getD 0) :=
        (congrArg read (hskip 0)).trans (read_append r us)
      rw [hread, show 3 + f.length = 2 + f.length + 1 by omega, hskip 1]
      cases r with
      | nil =>
          rw [List.append_nil] at hr
          rw [if_pos hr.symm]
          show (if (0 : UInt8) ≠ 0 ∧ (0 : UInt8) ≠ equals then some (.next (i + (f.length + 1)))
            else some (.found (buffer us))) = some (Round.found (buffer us))
          exact if_neg fun h => h.1 rfl
      | cons c v =>
          have hc : c ≠ 0 := fun h =>
            hzero (hr ▸ List.mem_append_right _ (h ▸ List.mem_cons_self))
          have hlonger : body ≠ f.chars := by
            intro heq
            have hlength := congrArg List.length (hr.trans heq)
            simp at hlength
          have hnonempty : f.chars ≠ [] := by
            intro hf
            have hbody' := hr.trans (hempty hf)
            simp at hbody'
          have hequals : f.chars ++ [equals] <+: body ↔ c = equals := by
            rw [← hr, List.prefix_append_right_inj]
            simp [List.cons_prefix_cons, eq_comm]
          have hvalue : body.drop (f.length + 1) = v := by
            rw [← hr, ← List.drop_drop]
            exact congrArg (List.drop 1) List.drop_left
          rw [if_neg hlonger, hvalue]
          by_cases heq : c = equals
          · rw [if_pos ⟨hnonempty, hequals.mpr heq⟩]
            exact if_neg fun h => h.2 heq
          · rw [if_neg fun h => heq (hequals.mp h.2)]
            exact if_pos ⟨hc, heq⟩
    · rw [if_pos hres0, if_neg, if_neg]
      · rintro ⟨hf, hpre⟩
        have hstarts : f.chars <+: body := (List.prefix_append _ _).trans hpre
        exact hres0 (hzeroIff.mpr ⟨hstarts, fun h => absurd h hf⟩)
      · intro hbody'
        exact hres0 (hzeroIff.mpr ⟨hbody' ▸ List.prefix_refl _, fun h => hbody'.trans h⟩)

/-- The round at the start of a token. -/
theorem round_eq (h : Ahead (parser.inputString.drop i) t.chars us (remaining t us))
    (hleft : remaining t us + i = parser.length) :
    (Stops opt t us → parser.round opt i = some .stop) ∧
    (¬Stops opt t us → Hits opt t →
      ∃ value, parser.round opt i = some (.found value) ∧ valueOf opt t us = some value) ∧
    (¬Stops opt t us → ¬Hits opt t →
      parser.round opt i = some (.next (i + (stride opt t + 1)))) := by
  have hlen : strlen (parser.inputString.drop i) = some t.length := by
    rw [h.str]
    exact strlen_append t.nonzero
  have hread : read (parser.inputString.drop i) = some (t.chars.head?.getD 0) := by
    rw [h.str]
    exact read_append t.chars us
  cases hdashes : dashes t with
  | none =>
      have hround : parser.round opt i = some (.next (i + (t.length + 1))) := by
        have hne : t.chars.head?.getD 0 ≠ dash := by
          have hhead := chars_of_none hdashes
          cases hchars : t.chars.head? with
          | none => decide
          | some c => exact fun hc => hhead (hchars.trans (congrArg some hc))
        unfold round
        dsimp only
        rw [hlen, hread]
        exact if_pos hne
      have hstop : ¬Stops opt t us := by
        unfold Stops
        rw [hdashes]
        exact fun h => h.2
      have hhit : ¬Hits opt t := by
        unfold Hits
        rw [hdashes]
        exact id
      have hstride : stride opt t = t.length := by
        unfold stride
        rw [hdashes]
      exact ⟨fun h => absurd h hstop, fun _ h => absurd h hhit, fun _ _ => hstride ▸ hround⟩
  | one body =>
      obtain ⟨hchars, hone⟩ := chars_of_one hdashes
      have hne : body.head?.getD 0 ≠ dash := by
        cases hhead : body.head? with
        | none => decide
        | some c => exact fun hc => hone (hhead.trans (congrArg some hc))
      have hround : parser.round opt i = match opt.shortForm with
          | some f => parser.shortRound opt f (parser.inputString.drop i) i t.length
          | none => some (.next (i + (t.length + 1))) := by
        have hread' : read ((parser.inputString.drop i).drop 1) = some (body.head?.getD 0) := by
          rw [h.str, hchars]
          exact read_append body us
        rw [hchars] at hread
        unfold round
        dsimp only
        rw [hlen, hread, hread']
        dsimp only [Option.bind_eq_bind, Option.bind_some, List.head?_cons, Option.getD_some]
        rw [if_neg (not_not_intro rfl), if_pos hne]
      have hstride : stride opt t = t.length := by
        unfold stride
        rw [hdashes]
      unfold Stops Hits valueOf
      rw [hdashes, hround, hstride]
      cases opt.shortForm with
      | none =>
          refine ⟨fun h => absurd rfl h.2.1, fun _ h => ?_, fun _ _ => rfl⟩
          obtain ⟨f, hf, -⟩ := h
          exact nomatch hf
      | some f =>
          dsimp only
          rw [shortRound_eq h hleft hchars f]
          refine ⟨fun hstop => if_pos ⟨hstop.1, hstop.2.2⟩, fun hstop hhit => ?_,
            fun hstop hmiss => ?_⟩
          · obtain ⟨f', hf, htakes⟩ := hhit
            cases hf
            rw [if_neg fun h => hstop ⟨h.1, nofun, h.2⟩, if_pos htakes, Option.bind_some,
              if_pos htakes]
            refine ⟨_, rfl, nextToken_isSome fun hvalue hnil => hstop ⟨hvalue, nofun, ?_⟩⟩
            rw [hnil]
            exact Nat.zero_le 2
          · rw [if_neg fun h => hstop ⟨h.1, nofun, h.2⟩, if_neg fun h => hmiss ⟨f, rfl, h⟩]
  | two body =>
      have hchars := chars_of_two hdashes
      have hround : parser.round opt i = match opt.longForm with
          | some f => parser.longRound opt f (parser.inputString.drop i) i
          | none => some (.next (i + (t.length + 1))) := by
        have hread' : read ((parser.inputString.drop i).drop 1) = some dash := by
          rw [h.str, hchars]
          rfl
        rw [hchars] at hread
        unfold round
        dsimp only
        rw [hlen, hread, hread']
        dsimp only [Option.bind_eq_bind, Option.bind_some, List.head?_cons, Option.getD_some]
        rw [if_neg (not_not_intro rfl), if_neg (not_not_intro rfl)]
      unfold Stops Hits valueOf stride
      rw [hdashes, hround]
      cases opt.longForm with
      | none =>
          refine ⟨fun h => ?_, fun _ h => ?_, fun _ _ => rfl⟩
          · obtain ⟨-, f, hf, -⟩ := h
            exact nomatch hf
          · obtain ⟨f, hf, -⟩ := h
            exact nomatch hf
      | some f =>
          dsimp only
          rw [longRound_eq h hleft hchars f]
          refine ⟨fun hstop => ?_, fun hstop hhit => ?_, fun hstop hmiss => ?_⟩
          · obtain ⟨hvalue, f', hf, hle⟩ := hstop
            cases hf
            exact if_pos ⟨hvalue, hle⟩
          · obtain ⟨f', hf, hhit⟩ := hhit
            cases hf
            rw [if_neg fun h => hstop ⟨h.1, f, rfl, h.2⟩, Option.bind_some]
            by_cases hwhole : body = f.chars
            · rw [if_pos hwhole, if_pos hwhole]
              refine ⟨_, rfl, nextToken_isSome fun hvalue hnil => hstop ⟨hvalue, f, rfl, ?_⟩⟩
              have hlen' : t.length = body.length + 2 := congrArg List.length hchars
              have hbody : body.length = f.length := congrArg List.length hwhole
              unfold remaining
              rw [hnil, hlen', hbody]
              exact Nat.le_refl _
            · rw [if_neg hwhole, if_neg hwhole, if_pos (hhit.resolve_left hwhole),
                if_pos (hhit.resolve_left hwhole).2]
              exact ⟨_, rfl, rfl⟩
          · rw [if_neg fun h => hstop ⟨h.1, f, rfl, h.2⟩,
              if_neg fun h => hmiss ⟨f, rfl, .inl h⟩, if_neg fun h => hmiss ⟨f, rfl, .inr h⟩]

/-! ## All tokens -/

theorem search_end {rounds : ℕ} (hpos : 0 < rounds) (h : ¬i + 1 < parser.length) :
    parser.search opt rounds i = some ([], none) := by
  obtain ⟨rounds, rfl⟩ := Nat.exists_eq_succ_of_ne_zero (Nat.ne_of_gt hpos)
  exact if_neg h

/-- A search that goes on looks at its position first. -/
theorem search_head {rounds : ℕ} (h : i + 1 < parser.length) {examined : List ℕ}
    {found : Option Pointer} (hrun : parser.search opt rounds i = some (examined, found)) :
    examined.head? = some i := by
  cases rounds with
  | zero => exact nomatch hrun
  | succ rounds =>
      unfold search at hrun
      rw [if_pos h] at hrun
      obtain ⟨r, -, hr⟩ := Option.bind_eq_some_iff.mp hrun
      cases r with
      | found value =>
          cases hr
          rfl
      | stop =>
          cases hr
          rfl
      | next i' =>
          obtain ⟨x, -, hx⟩ := Option.map_eq_some_iff.mp hr
          cases hx
          rfl

end CommandLineOptionParser

/-- A token that is missed is one with an equals sign for an empty long form. -/
theorem stride_of_missed (hmiss : ¬Hits opt t) (hvalue : valueOf opt t us ≠ none) :
    stride opt t = 0 ∧ 3 ≤ t.length := by
  unfold Hits at hmiss
  unfold valueOf at hvalue
  unfold stride
  cases hdashes : dashes t with
  | none =>
      rw [hdashes] at hvalue
      exact absurd rfl hvalue
  | one body =>
      rw [hdashes] at hvalue hmiss
      obtain ⟨value, hbind⟩ := Option.ne_none_iff_exists'.mp hvalue
      obtain ⟨f, hf, htakes⟩ := Option.bind_eq_some_iff.mp hbind
      split at htakes
      next h => exact absurd ⟨f, hf, h⟩ hmiss
      next => exact nomatch htakes
  | two body =>
      rw [hdashes] at hvalue hmiss
      obtain ⟨value, hbind⟩ := Option.ne_none_iff_exists'.mp hvalue
      obtain ⟨f, hf, htakes⟩ := Option.bind_eq_some_iff.mp hbind
      have hwhole : body ≠ f.chars := fun h => hmiss ⟨f, hf, .inl h⟩
      rw [if_neg hwhole] at htakes
      obtain ⟨hpre, -⟩ := Option.ite_none_right_eq_some.mp htakes
      have hempty : f.chars = [] := by
        by_contra h
        exact hmiss ⟨f, hf, .inr ⟨h, hpre⟩⟩
      have hlen : t.length = body.length + 2 := congrArg List.length (chars_of_two hdashes)
      have hbody := hpre.length_le
      rw [hempty] at hbody
      have hone : 1 ≤ body.length := hbody
      rw [hf]
      exact ⟨congrArg List.length hempty, by omega⟩

theorem lookup_cons_none (h : valueOf opt t us = none) : lookup opt (t :: us) = lookup opt us := by
  show (valueOf opt t us).or (lookup opt us) = _
  rw [h]
  rfl

theorem lookup_cons_some {value : Pointer} (h : valueOf opt t us = some value) :
    lookup opt (t :: us) = some value := by
  show (valueOf opt t us).or (lookup opt us) = _
  rw [h]
  rfl

/-- The rest of a search that is at its end. -/
theorem seen_of_short (h : (buffer us).length ≤ 2) : Seen opt us ↔ lookup opt us = none := by
  cases us with
  | nil => exact ⟨fun _ => rfl, fun _ => trivial⟩
  | cons u us =>
      have hshort : remaining u us < 2 := by
        rw [buffer_cons, List.length_append, List.length_cons] at h
        unfold remaining
        have hlen : u.length = u.chars.length := rfl
        omega
      exact ⟨fun hseen => hseen.1 (.inl hshort),
        fun hnone => ⟨fun _ => hnone, fun hgo => absurd (.inl hshort) hgo⟩⟩

/-- What the search finds from a position on, and the positions it looks at, are those of the
tokens. -/
def Searches (parser : CommandLineOptionParser) (opt : CommandLineOptionSpecification)
    (rounds i : ℕ) (ts : List CString) : Prop :=
  ∃ examined, parser.search opt rounds i = some (examined, lookup opt ts) ∧
    examined <+: startsFrom i ts

variable {parser : CommandLineOptionParser} {i rounds : ℕ}

theorem searches_of_run {examined : List ℕ} {found : Option Pointer} {ts : List CString}
    (hrun : parser.search opt rounds i = some (examined, found))
    (hpre : examined <+: startsFrom i ts) :
    Searches parser opt rounds i ts ↔ found = lookup opt ts := by
  constructor
  · rintro ⟨_, hrun', -⟩
    cases hrun.symm.trans hrun'
    rfl
  · rintro rfl
    exact ⟨examined, hrun, hpre⟩

/-- The search moves on. -/
theorem searches_next {i' : ℕ} (hlt : i + 1 < parser.length)
    (hround : parser.round opt i = some (.next i')) :
    Searches parser opt (rounds + 1) i (t :: us) ↔
      ∃ examined, parser.search opt rounds i' = some (examined, lookup opt (t :: us)) ∧
        examined <+: startsFrom (i + (t.length + 1)) us := by
  have hstep : parser.search opt (rounds + 1) i =
      (parser.search opt rounds i').map fun x => (i :: x.1, x.2) := by
    show (if i + 1 < parser.length then _ else _) = _
    rw [if_pos hlt, hround]
    rfl
  unfold Searches
  rw [hstep]
  constructor
  · rintro ⟨examined, hrun, hpre⟩
    obtain ⟨x, hx, heq⟩ := Option.map_eq_some_iff.mp hrun
    obtain ⟨hexamined, hfound⟩ := Prod.ext_iff.mp heq
    obtain rfl : i :: x.1 = examined := hexamined
    exact ⟨x.1, hx.trans (congrArg some (Prod.ext rfl hfound)),
      (List.cons_prefix_cons.mp hpre).2⟩
  · rintro ⟨examined, hrun, hpre⟩
    rw [hrun]
    exact ⟨i :: examined, rfl, List.cons_prefix_cons.mpr ⟨rfl, hpre⟩⟩

/-- One token: the search does what the condition says of it. -/
theorem searches_step (hahead : Ahead (parser.inputString.drop i) t.chars us (remaining t us))
    (hleft : remaining t us + i = parser.length) (hrounds : remaining t us ≤ rounds)
    (ih : 0 < rounds → (Searches parser opt rounds (i + (t.length + 1)) us ↔ Seen opt us)) :
    Searches parser opt (rounds + 1) i (t :: us) ↔ Seen opt (t :: us) := by
  obtain ⟨hstop, hhit, hmiss⟩ := @CommandLineOptionParser.round_eq opt t us parser i hahead hleft
  by_cases hroom : remaining t us < 2
  · have hrun : parser.search opt (rounds + 1) i = some ([], none) :=
      CommandLineOptionParser.search_end (Nat.succ_pos _) (by omega)
    rw [searches_of_run hrun List.nil_prefix]
    exact ⟨fun h => ⟨fun _ => h.symm, fun hgo => absurd (.inl hroom) hgo⟩,
      fun h => (h.1 (.inl hroom)).symm⟩
  have hlt : i + 1 < parser.length := by omega
  have hhere : [i] <+: startsFrom i (t :: us) :=
    List.cons_prefix_cons.mpr ⟨rfl, List.nil_prefix⟩
  by_cases hstops : Stops opt t us
  · have hrun : parser.search opt (rounds + 1) i = some ([i], none) := by
      unfold CommandLineOptionParser.search
      rw [if_pos hlt, hstop hstops]
      rfl
    rw [searches_of_run hrun hhere]
    exact ⟨fun h => ⟨fun _ => h.symm, fun hgo => absurd (.inr hstops) hgo⟩,
      fun h => (h.1 (.inr hstops)).symm⟩
  have hgo : ¬(remaining t us < 2 ∨ Stops opt t us) := fun h => h.elim hroom hstops
  by_cases hhits : Hits opt t
  · obtain ⟨value, hround, hvalue⟩ := hhit hstops hhits
    have hrun : parser.search opt (rounds + 1) i = some ([i], some value) := by
      unfold CommandLineOptionParser.search
      rw [if_pos hlt, hround]
      rfl
    rw [searches_of_run hrun hhere, lookup_cons_some hvalue]
    exact ⟨fun _ => ⟨fun h => absurd h hgo, fun _ => .inl hhits⟩, fun _ => rfl⟩
  have hseen : Seen opt (t :: us) ↔ valueOf opt t us = none ∧
      (stride opt t = t.length ∧ Seen opt us ∨
        remaining t us ≤ stride opt t + 2 ∧ lookup opt us = none) :=
    ⟨fun h => (h.2 hgo).resolve_left hhits, fun h => ⟨fun hgo' => absurd hgo' hgo, fun _ => .inr h⟩⟩
  rw [hseen, searches_next hlt (hmiss hstops hhits)]
  by_cases hstride : stride opt t = t.length
  · -- The next position is the start of the next token.
    have hvalue : valueOf opt t us = none := by
      by_contra h
      have hmissed := stride_of_missed hhits h
      omega
    rw [hstride, lookup_cons_none hvalue]
    refine (ih (by omega)).trans ⟨fun h => ⟨hvalue, .inl ⟨rfl, h⟩⟩, fun h => ?_⟩
    rcases h.2 with ⟨-, hrest⟩ | ⟨hend, hnone⟩
    · exact hrest
    · exact (seen_of_short (by unfold remaining at hend; omega)).mpr hnone
  · by_cases hend : remaining t us ≤ stride opt t + 2
    · -- The search is over.
      have hrun : parser.search opt rounds (i + (stride opt t + 1)) = some ([], none) :=
        CommandLineOptionParser.search_end (by omega) (by omega)
      rw [hrun]
      constructor
      · rintro ⟨_, heq, -⟩
        obtain ⟨-, hnone⟩ := Prod.ext_iff.mp (Option.some.inj heq)
        obtain ⟨hvalue, hrest⟩ := Option.or_eq_none_iff.mp hnone.symm
        exact ⟨hvalue, .inr ⟨hend, hrest⟩⟩
      · rintro ⟨hvalue, hrest⟩
        have hnone := (hrest.resolve_left fun h => hstride h.1).2
        rw [lookup_cons_none hvalue, hnone]
        exact ⟨[], rfl, List.nil_prefix⟩
    · -- The next position is within a token.
      constructor
      · rintro ⟨examined, hrun, hpre⟩
        have hhead := CommandLineOptionParser.search_head (by omega) hrun
        cases us with
        | nil =>
            rw [List.prefix_nil.mp hpre] at hhead
            exact nomatch hhead
        | cons u us =>
            obtain ⟨rest, hrest⟩ := hpre
            cases examined with
            | nil => exact nomatch hhead
            | cons j examined =>
                have hj := Option.some.inj hhead
                have hj' := (List.cons.inj hrest).1
                omega
      · rintro ⟨-, hrest⟩
        exact absurd hrest fun h => h.elim (fun h => hstride h.1) fun h => hend h.1

variable {tokens : List CString} {k : ℕ}

/-- The search from the start of a token on. -/
theorem search_iff_seen (hne : tokens ≠ []) {rounds : ℕ}
    (hrounds : (CommandLineOptionParser.ofTokens tokens).length < start tokens k + rounds)
    (hpos : 0 < rounds) :
    Searches (CommandLineOptionParser.ofTokens tokens) opt rounds (start tokens k)
      (tokens.drop k) ↔ Seen opt (tokens.drop k) := by
  induction rounds generalizing k with
  | zero => exact absurd hpos (Nat.lt_irrefl 0)
  | succ rounds ih =>
      have hlength := length_ofTokens hne
      have hbuffer := length_buffer tokens k
      cases hdrop : tokens.drop k with
      | nil =>
          rw [hdrop] at hbuffer
          have hend : (buffer []).length = 0 := rfl
          have hrun : (CommandLineOptionParser.ofTokens tokens).search opt (rounds + 1)
              (start tokens k) = some ([], none) :=
            CommandLineOptionParser.search_end hpos (by omega)
          rw [searches_of_run hrun List.nil_prefix]
          exact ⟨fun _ => trivial, fun _ => rfl⟩
      | cons t us =>
          have hsucc := start_succ hdrop
          have htail : tokens.drop (k + 1) = us := by rw [← List.tail_drop, hdrop, List.tail_cons]
          have hnext := @ih (k + 1)
          rw [hdrop, buffer_cons, List.length_append, List.length_cons] at hbuffer
          have hlen : t.length = t.chars.length := rfl
          have hleft : remaining t us + start tokens k =
              (CommandLineOptionParser.ofTokens tokens).length := by
            unfold remaining
            omega
          have hahead := ahead_start hne hdrop
          rw [← hleft, Nat.add_sub_cancel] at hahead
          rw [htail, hsucc] at hnext
          exact searches_step hahead hleft (by omega) fun hpos' => hnext (by omega) hpos'

/-- The value of a token is a string, unless none is needed. -/
theorem valueOf_string {value : Pointer} (h : valueOf opt t us = some value) :
    opt.byPresence = true ∨ ∃ v rest, value = v ++ 0 :: rest := by
  have hnext : nextToken opt us = some value →
      opt.byPresence = true ∨ ∃ v rest, value = v ++ 0 :: rest := by
    intro h
    unfold nextToken at h
    split at h
    next => exact nomatch h
    next hneeds =>
      cases h
      cases hpresence : opt.byPresence with
      | true => exact .inl rfl
      | false =>
          cases us with
          | nil => exact absurd ⟨hpresence, rfl⟩ hneeds
          | cons u us => exact .inr ⟨u.chars, buffer us, buffer_cons u us⟩
  unfold valueOf at h
  split at h
  next => exact nomatch h
  next =>
    obtain ⟨f, -, hf⟩ := Option.bind_eq_some_iff.mp h
    exact hnext (Option.ite_none_right_eq_some.mp hf).2
  next body _ =>
    obtain ⟨f, -, hf⟩ := Option.bind_eq_some_iff.mp h
    split at hf
    next => exact hnext hf
    next =>
      obtain ⟨-, hvalue⟩ := Option.ite_none_right_eq_some.mp hf
      cases hvalue
      exact .inr ⟨_, _, rfl⟩

/-- What is found can be converted. -/
theorem conclude_lookup (opt : CommandLineOptionSpecification) (examined : List ℕ)
    (ts : List CString) : ∃ l, conclude opt examined (lookup opt ts) = some l ∧
      l.examined = examined ∧ l.found = lookup opt ts := by
  have hsome : ∀ value, opt.byPresence = true ∨ (∃ v rest, value = v ++ 0 :: rest) →
      ∃ l, conclude opt examined (some value) = some l ∧ l.examined = examined ∧
        l.found = some value := by
    intro value hvalue
    have hrun : ∃ res opt', handleValue opt value = some (res, opt') := by
      rcases hvalue with hpresence | ⟨v, rest, hv⟩
      · obtain ⟨res, opt', hrun, -⟩ := @handleValue_append [] [] value _
          (.inl hpresence)
        exact ⟨res, opt', hrun⟩
      · obtain ⟨res, opt', hrun, -⟩ := @handleValue_append _ _ _ opt (.inr hv)
        exact ⟨res, opt', hrun⟩
    obtain ⟨res, opt', hrun⟩ := hrun
    show ∃ l, (handleValue opt value).map _ = some l ∧ _
    rw [hrun]
    exact ⟨_, rfl, rfl, rfl⟩
  induction ts with
  | nil => exact ⟨_, rfl, rfl, rfl⟩
  | cons t us ih =>
      cases hvalue : valueOf opt t us with
      | none =>
          rw [lookup_cons_none hvalue]
          exact ih
      | some value =>
          rw [lookup_cons_some hvalue]
          exact hsome value (valueOf_string hvalue)

/-- The record says what was found. -/
theorem conclude_record {examined : List ℕ} {found : Option Pointer} {l : Lookup}
    (h : conclude opt examined found = some l) : l.examined = examined ∧ l.found = found := by
  cases found with
  | none =>
      cases h
      exact ⟨rfl, rfl⟩
  | some value =>
      obtain ⟨x, -, hx⟩ := Option.map_eq_some_iff.mp h
      cases hx
      exact ⟨rfl, rfl⟩

/-- An option that has no result yet is looked up in whole tokens exactly when each token is
passed by its length. -/
theorem parseOption_sees_iff (tokens : List CString) (opt : CommandLineOptionSpecification) :
    SeesTokens tokens opt ↔ opt.parsingResult = some .okay ∨ Seen opt tokens := by
  by_cases hdone : opt.parsingResult = some .okay
  · exact ⟨fun _ => .inl hdone, fun _ h => absurd hdone h⟩
  rw [or_iff_right hdone]
  have hsearches : Searches (CommandLineOptionParser.ofTokens tokens) opt
      ((CommandLineOptionParser.ofTokens tokens).length + 1) 0 tokens ↔ Seen opt tokens := by
    cases tokens with
    | nil =>
        have hrun : (CommandLineOptionParser.ofTokens []).search opt
            ((CommandLineOptionParser.ofTokens []).length + 1) 0 = some ([], none) := rfl
        rw [searches_of_run hrun List.nil_prefix]
        exact ⟨fun _ => trivial, fun _ => rfl⟩
    | cons t us =>
        exact @search_iff_seen opt (t :: us) 0 (List.cons_ne_nil t us) _
          (by unfold start; omega) (Nat.succ_pos _)
  rw [← hsearches]
  have hparse : (CommandLineOptionParser.ofTokens tokens).parseOption opt =
      ((CommandLineOptionParser.ofTokens tokens).search opt
        ((CommandLineOptionParser.ofTokens tokens).length + 1) 0).bind fun x =>
          conclude opt x.1 x.2 := if_neg hdone
  constructor
  · intro h
    obtain ⟨l, hl, hconclude, hpre⟩ := h hdone
    rw [hparse] at hl
    obtain ⟨x, hx, hl⟩ := Option.bind_eq_some_iff.mp hl
    obtain ⟨hexamined, hfound⟩ := conclude_record hl
    refine ⟨x.1, hx.trans (congrArg some (Prod.ext rfl ?_)), hexamined ▸ hpre⟩
    exact hfound.symm.trans (conclude_record hconclude).2
  · rintro ⟨examined, hrun, hpre⟩ -
    obtain ⟨l, hl, hexamined, -⟩ := conclude_lookup opt examined tokens
    refine ⟨l, ?_, hexamined ▸ hl, hexamined ▸ hpre⟩
    rw [hparse, hrun]
    exact hl

/-- `--x -b` with the option `-b`, `--long`: after the first token the search is behind the dash of
the second one, and finds nothing. -/
theorem parseOption_skips :
    ¬SeesTokens [⟨[0x2D, 0x2D, 0x78], by decide⟩, ⟨[0x2D, 0x62], by decide⟩]
      (presenceOption (some ⟨[0x62], by decide⟩) (some ⟨[0x6C, 0x6F, 0x6E, 0x67], by decide⟩)) := by
  intro h
  obtain ⟨l, hl, hconclude, -⟩ := h nofun
  have hfound := (conclude_record hconclude).2
  have hnone : ((CommandLineOptionParser.ofTokens [⟨[0x2D, 0x2D, 0x78], by decide⟩,
      ⟨[0x2D, 0x62], by decide⟩]).parseOption (presenceOption (some ⟨[0x62], by decide⟩)
        (some ⟨[0x6C, 0x6F, 0x6E, 0x67], by decide⟩))).map Lookup.found = some none := rfl
  rw [hl] at hnone
  exact nomatch (Option.some.inj hnone).symm.trans hfound

end Beelzebub.CommandLine
