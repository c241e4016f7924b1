import Beelzebub.Handles
import Beelzebub.Utils.Strings

/-!
# Numbers and truth values from strings

`FromString` for the types that a command-line option can have.  A result without a value leaves
the variable as it was.
-/

namespace Beelzebub.Conversions

open Strings

/-! ## The code -/

/-- A character as a digit, without the shift: `none` when it is not one. -/
def digit16 (c : UInt8) : Option UInt64 :=
  if c ≥ 0x30 then
    if c > 0x40 then
      if c > 0x60 then
        if c ≤ 0x66 then some (c - 0x60).toUInt64 else none
      else if c ≤ 0x46 then some (c - 0x40).toUInt64
      else none
    else if c < 0x3A then some (c - 0x30).toUInt64
    else none
  else none

def digit8 (c : UInt8) : Option UInt64 :=
  if c < 0x30 ∨ c ≥ 0x38 then none else some (c - 0x30).toUInt64

def digit2 (c : UInt8) : Option UInt64 :=
  if c = 0x31 then some 1 else if c = 0x30 then some 0 else none

/-- The loop over the digits of a base that is a power of two: the number of digits and what they
make, or `none` inside when there is a wrong one. -/
def digits (digit : UInt8 → Option UInt64) (shift : UInt64) (limit : ℕ) :
    Pointer → ℕ → UInt64 → Option (Option (ℕ × UInt64))
  | [], _, _ => none
  | c :: str, i, res =>
      if c ≠ 0 ∧ i < limit then
        match digit c with
        | none => some none
        | some d => digits digit shift limit str (i + 1) ((res <<< shift) ||| d)
      else some (some (i, res))

def strToUIntBase16 (limit : ℕ) (str : Pointer) : Option (HandleResult × Option UInt64) :=
  (digits digit16 4 limit str 0 0).map fun
    | none => (.argumentOutOfRange, none)
    | some (i, res) =>
        if i ≥ limit ∨ i = 0 then (.argumentOutOfRange, none) else (.okay, some res)

def strToUIntBase8 (limit : ℕ) (str : Pointer) : Option (HandleResult × Option UInt64) :=
  (digits digit8 3 limit str 0 0).map fun
    | none => (.argumentOutOfRange, none)
    | some (i, res) => if i ≥ limit then (.argumentOutOfRange, none) else (.okay, some res)

def strToUIntBase2 (str : Pointer) : Option (HandleResult × Option UInt64) :=
  (digits digit2 1 64 str 0 0).map fun
    | none => (.argumentOutOfRange, none)
    | some (i, res) => if i ≥ 64 ∨ i = 0 then (.argumentOutOfRange, none) else (.okay, some res)

/-- The loop over decimal digits.  It writes the variable in every round. -/
def decimal : Pointer → UInt64 → UInt64 → Option (HandleResult × Option UInt64)
  | [], _, _ => none
  | c :: str, res, val =>
      if c ≠ 0 then
        if res * 10 < val then some (.argumentOutOfRange, some val)
        else if c < 0x30 ∨ c ≥ 0x3A then some (.argumentOutOfRange, some (res * 10))
        else decimal str (res * 10 + (c - 0x30).toUInt64) (res * 10)
      else some (.okay, some res)

def strToUIntBase10 (str : Pointer) : Option (HandleResult × Option UInt64) := decimal str 0 0

/-- `FromString<uint64_t>`. -/
def fromStringUInt64 (str : Pointer) : Option (HandleResult × Option UInt64) := do
  let c ← read str
  if c = 0x30 then
    let x ← read (str.drop 1)
    if x = 0x78 ∨ x = 0x58 then strToUIntBase16 16 (str.drop 2)
    else if x = 0x62 ∨ x = 0x42 then strToUIntBase2 (str.drop 2)
    else strToUIntBase8 21 (str.drop 1)
  else strToUIntBase10 str

/-- What follows the parsing in `FromString<int64_t>`. -/
def negate (negative : Bool) : HandleResult × Option UInt64 → HandleResult × Option ℤ
  | (.okay, some temp) =>
      if temp >>> 63 ≠ 0 then (.argumentOutOfRange, none)
      else if negative then (.okay, some (-(temp.toNat : ℤ)))
      else (.okay, some temp.toNat)
  | (res, _) => (res, none)

/-- `FromString<int64_t>`. -/
def fromStringInt64 (str : Pointer) : Option (HandleResult × Option ℤ) := do
  let c ← read str
  if c = 0x2D then (fromStringUInt64 (str.drop 1)).map (negate true)
  else (fromStringUInt64 str).map (negate false)

/-- The loop of `FromString<bool>`: at most six characters in lower case. -/
def lowered : ℕ → Pointer → Option (List UInt8)
  | 0, _ => some []
  | _ + 1, [] => none
  | n + 1, c :: str =>
      if c = 0 then some []
      else (lowered n str).map ((if 0x41 ≤ c ∧ c ≤ 0x5A then c + 0x20 else c) :: ·)

/-- `FromString<bool>`. -/
def fromStringBool (str : Pointer) : Option (HandleResult × Option Bool) :=
  (lowered 6 str).map fun buf =>
    if buf.length = 6 then (.argumentOutOfRange, none)
    else if buf = [0x74, 0x72, 0x75, 0x65] then (.okay, some true)
    else if buf = [0x66, 0x61, 0x6C, 0x73, 0x65] then (.okay, some false)
    else if buf = [0x79, 0x65, 0x73] then (.okay, some true)
    else if buf = [0x6E, 0x6F] then (.okay, some false)
    else if buf = [0x6F, 0x6E] then (.okay, some true)
    else if buf = [0x6F, 0x66, 0x66] then (.okay, some false)
    else (.argumentOutOfRange, none)

/-! ## Reading

A conversion reads its string up to the end at most, and says that something was not found in no
case. -/

/-- The conversion of a string is defined, and its result is one of two. -/
def Converts {α : Type} (x : Option (HandleResult × Option α)) : Prop :=
  ∃ res val, x = some (res, val) ∧ res ≠ .notFound

variable {t rest : List UInt8}

theorem digits_append {digit : UInt8 → Option UInt64} {shift : UInt64} {limit : ℕ} (i : ℕ)
    (res : UInt64) : ∃ x, digits digit shift limit (t ++ 0 :: rest) i res = some x := by
  induction t generalizing i res with
  | nil => exact ⟨_, if_neg fun h => h.1 rfl⟩
  | cons c t ih =>
      show ∃ x, (if c ≠ 0 ∧ i < limit then _ else _) = some x
      split
      next =>
        cases digit c with
        | none => exact ⟨none, rfl⟩
        | some d => exact ih _ _
      next => exact ⟨_, rfl⟩

theorem converts_map {α β : Type} {x : Option β} {f : β → HandleResult × Option α}
    (hx : ∃ y, x = some y) (hf : ∀ y, (f y).1 ≠ .notFound) : Converts (x.map f) := by
  obtain ⟨y, rfl⟩ := hx
  exact ⟨(f y).1, (f y).2, rfl, hf y⟩

/-- A conversion of digits refuses a wrong digit and a number of digits that is `bad`. -/
theorem digits_converts (digit : UInt8 → Option UInt64) (shift : UInt64) (limit : ℕ)
    (bad : ℕ → Prop) [DecidablePred bad] :
    Converts ((digits digit shift limit (t ++ 0 :: rest) 0 0).map fun
      | none => (.argumentOutOfRange, none)
      | some (i, res) => if bad i then (.argumentOutOfRange, none) else (.okay, some res)) := by
  apply converts_map (digits_append 0 0)
  intro y
  match y with
  | none => exact HandleResult.noConfusion
  | some (i, res) =>
      dsimp only
      split <;> exact HandleResult.noConfusion

theorem strToUIntBase16_converts (limit : ℕ) :
    Converts (strToUIntBase16 limit (t ++ 0 :: rest)) :=
  digits_converts digit16 4 limit fun i => i ≥ limit ∨ i = 0

theorem strToUIntBase8_converts (limit : ℕ) : Converts (strToUIntBase8 limit (t ++ 0 :: rest)) :=
  digits_converts digit8 3 limit fun i => i ≥ limit

theorem strToUIntBase2_converts : Converts (strToUIntBase2 (t ++ 0 :: rest)) :=
  digits_converts digit2 1 64 fun i => i ≥ 64 ∨ i = 0

theorem decimal_converts (res val : UInt64) : Converts (decimal (t ++ 0 :: rest) res val) := by
  induction t generalizing res val with
  | nil => exact ⟨.okay, some res, if_neg fun h => h rfl, HandleResult.noConfusion⟩
  | cons c t ih =>
      show Converts (if c ≠ 0 then _ else _)
      split
      next =>
        split
        next => exact ⟨_, _, rfl, HandleResult.noConfusion⟩
        next =>
          split
          next => exact ⟨_, _, rfl, HandleResult.noConfusion⟩
          next => exact ih _ _
      next => exact ⟨_, _, rfl, HandleResult.noConfusion⟩

theorem fromStringUInt64_converts : Converts (fromStringUInt64 (t ++ 0 :: rest)) := by
  cases t with
  | nil => exact ⟨.okay, some 0, rfl, HandleResult.noConfusion⟩
  | cons c t =>
      show Converts (if c = 0x30 then _ else _)
      split
      next =>
        cases t with
        | nil =>
            have hempty : Converts (strToUIntBase8 21 ([] ++ 0 :: rest)) :=
              strToUIntBase8_converts 21
            exact hempty
        | cons x t =>
            show Converts (if x = 0x78 ∨ x = 0x58 then _ else _)
            split
            next => exact strToUIntBase16_converts 16
            next =>
              split
              next => exact strToUIntBase2_converts
              next => exact strToUIntBase8_converts (t := x :: t) 21
      next => exact decimal_converts (t := c :: t) 0 0

theorem negate_ne (negative : Bool) {x : HandleResult × Option UInt64} (hx : x.1 ≠ .notFound) :
    (negate negative x).1 ≠ .notFound := by
  unfold negate
  split
  next =>
    split
    next => exact HandleResult.noConfusion
    next => split <;> exact HandleResult.noConfusion
  next => exact hx

theorem fromStringInt64_converts : Converts (fromStringInt64 (t ++ 0 :: rest)) := by
  have hmap : ∀ (negative : Bool) {t : List UInt8},
      Converts ((fromStringUInt64 (t ++ 0 :: rest)).map (negate negative)) := by
    intro negative t
    obtain ⟨res, val, heq, hne⟩ := @fromStringUInt64_converts t rest
    rw [heq]
    exact ⟨_, _, rfl, negate_ne negative (x := (res, val)) hne⟩
  cases t with
  | nil => exact hmap false (t := [])
  | cons c t =>
      show Converts (if c = 0x2D then _ else _)
      split
      next => exact hmap true
      next => exact hmap false (t := c :: t)

theorem lowered_append (n : ℕ) : ∃ buf, lowered n (t ++ 0 :: rest) = some buf := by
  induction t generalizing n with
  | nil => cases n <;> exact ⟨[], rfl⟩
  | cons c t ih =>
      cases n with
      | zero => exact ⟨[], rfl⟩
      | succ n =>
          obtain ⟨buf, hbuf⟩ := ih n
          show ∃ buf, (if c = 0 then _ else (lowered n (t ++ 0 :: rest)).map _) = some buf
          split
          next => exact ⟨[], rfl⟩
          next =>
            rw [hbuf]
            exact ⟨_, rfl⟩

theorem fromStringBool_converts : Converts (fromStringBool (t ++ 0 :: rest)) := by
  refine converts_map (lowered_append 6) fun buf => ?_
  repeat' split
  all_goals exact HandleResult.noConfusion

end Beelzebub.Conversions
