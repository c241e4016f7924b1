import Beelzebub.Lib.Numerals
import Beelzebub.Utils.Conversions

/-!
# Integers of all widths from strings

`FromString` for the integer types of 16, 32 and 64 bits, over workers that are generic in the
width, and the numbers that strings are to stand for.
-/

namespace Beelzebub.Conversions

open Numerals Strings

/-! ## The code -/

/-- The loop over the digits of a base that is a power of two, for an integer type of any width:
see `digits`. -/
def digitsOf (w : ℕ) (digit : UInt8 → Option UInt64) (shift limit : ℕ) :
    Pointer → ℕ → BitVec w → Option (Option (ℕ × BitVec w))
  | [], _, _ => none
  | c :: str, i, res =>
      if c ≠ 0 ∧ i < limit then
        match digit c with
        | none => some none
        | some d =>
            digitsOf w digit shift limit str (i + 1) ((res <<< shift) ||| d.toBitVec.setWidth w)
      else some (some (i, res))

namespace StrToUInt

def base16 (w limit : ℕ) (str : Pointer) : Option (HandleResult × Option (BitVec w)) :=
  (digitsOf w digit16 4 limit str 0 0).map fun
    | none => (.argumentOutOfRange, none)
    | some (i, res) =>
        if i ≥ limit ∨ i = 0 then (.argumentOutOfRange, none) else (.okay, some res)

def base8 (w limit : ℕ) (str : Pointer) : Option (HandleResult × Option (BitVec w)) :=
  (digitsOf w digit8 3 limit str 0 0).map fun
    | none => (.argumentOutOfRange, none)
    | some (i, res) => if i ≥ limit then (.argumentOutOfRange, none) else (.okay, some res)

def base2 (w : ℕ) (str : Pointer) : Option (HandleResult × Option (BitVec w)) :=
  (digitsOf w digit2 1 w str 0 0).map fun
    | none => (.argumentOutOfRange, none)
    | some (i, res) => if i ≥ w ∨ i = 0 then (.argumentOutOfRange, none) else (.okay, some res)

/-- The loop over decimal digits: see `decimal`. -/
def decimalOf (w : ℕ) : Pointer → BitVec w → BitVec w → Option (HandleResult × Option (BitVec w))
  | [], _, _ => none
  | c :: str, res, val =>
      if c ≠ 0 then
        if res * 10 < val then some (.argumentOutOfRange, some val)
        else if c < 0x30 ∨ c ≥ 0x3A then some (.argumentOutOfRange, some (res * 10))
        else decimalOf w str (res * 10 + (c - 0x30).toUInt64.toBitVec.setWidth w) (res * 10)
      else some (.okay, some res)

def base10 (w : ℕ) (str : Pointer) : Option (HandleResult × Option (BitVec w)) :=
  decimalOf w str 0 0

end StrToUInt

variable {w : ℕ}

/-- The base is read off the first characters.  The types differ in how they parse octals. -/
def byBase (limit16 : ℕ) (octal : Pointer → Option (HandleResult × Option (BitVec w)))
    (str : Pointer) : Option (HandleResult × Option (BitVec w)) := do
  let c ← read str
  if c = 0x30 then
    let x ← read (str.drop 1)
    if x = 0x78 ∨ x = 0x58 then StrToUInt.base16 w limit16 (str.drop 2)
    else if x = 0x62 ∨ x = 0x42 then StrToUInt.base2 w (str.drop 2)
    else octal (str.drop 1)
  else StrToUInt.base10 w str

/-- What follows the octals of the unsigned types, given what the wider `temp` holds when nothing
was stored to it. -/
def checked {W : ℕ} (w : ℕ) (temp : BitVec W) :
    HandleResult × Option (BitVec W) → HandleResult × Option (BitVec w)
  | (res, stored) =>
      let temp := stored.getD temp
      if res = .okay ∧ temp >>> w ≠ 0 then (.argumentOutOfRange, none)
      else (res, some (temp.setWidth w))

/-- What follows the octals of the signed types. -/
def cut {W : ℕ} (w : ℕ) :
    HandleResult × Option (BitVec W) → HandleResult × Option (BitVec w)
  | (res, stored) => (res, stored.map (·.setWidth w))

/-- The sign, and what follows the parsing for the signed types: see `negate`. -/
def withSign (parse : Pointer → Option (HandleResult × Option (BitVec w))) (str : Pointer) :
    Option (HandleResult × Option ℤ) := do
  let c ← read str
  if c = 0x2D then (parse (str.drop 1)).map (sign true) else (parse str).map (sign false)
where
  sign (negative : Bool) : HandleResult × Option (BitVec w) → HandleResult × Option ℤ
    | (.okay, some temp) =>
        if temp >>> (w - 1) ≠ 0 then (.argumentOutOfRange, none)
        else if negative then (.okay, some (-(temp.toNat : ℤ)))
        else (.okay, some temp.toNat)
    | (res, _) => (res, none)

/-- `FromString<uint32_t>`. -/
def fromStringUInt32 (temp : BitVec 64) (str : Pointer) :
    Option (HandleResult × Option (BitVec 32)) :=
  byBase 8 (fun str => (StrToUInt.base8 64 11 str).map (checked 32 temp)) str

/-- `FromString<uint16_t>`. -/
def fromStringUInt16 (temp : BitVec 32) (str : Pointer) :
    Option (HandleResult × Option (BitVec 16)) :=
  byBase 4 (fun str => (StrToUInt.base8 32 6 str).map (checked 16 temp)) str

/-- `FromString<int32_t>`. -/
def fromStringInt32 (str : Pointer) : Option (HandleResult × Option ℤ) :=
  withSign (byBase 8 fun str => (StrToUInt.base8 64 11 str).map (cut 32)) str

/-- `FromString<int16_t>`. -/
def fromStringInt16 (str : Pointer) : Option (HandleResult × Option ℤ) :=
  withSign (byBase 4 fun str => (StrToUInt.base8 32 6 str).map (cut 16)) str

/-- The instances of `FromString` for integers. -/
inductive IntegerType where
  | int64
  | uint64
  | int32
  | uint32
  | int16
  | uint16

namespace IntegerType

def width : IntegerType → ℕ
  | int64 => 64
  | uint64 => 64
  | int32 => 32
  | uint32 => 32
  | int16 => 16
  | uint16 => 16

def signed : IntegerType → Bool
  | int64 => true
  | uint64 => false
  | int32 => true
  | uint32 => false
  | int16 => true
  | uint16 => false

/-- `FromString<T>`, and the number that it stores. -/
def fromString (temp : BitVec 64) (str : Pointer) :
    IntegerType → Option (HandleResult × Option ℤ)
  | int64 => fromStringInt64 str
  | uint64 => (fromStringUInt64 str).map fun x => (x.1, x.2.map fun v => (v.toNat : ℤ))
  | int32 => fromStringInt32 str
  | uint32 => (fromStringUInt32 temp str).map fun x => (x.1, x.2.map fun v => (v.toNat : ℤ))
  | int16 => fromStringInt16 str
  | uint16 =>
      (fromStringUInt16 (temp.setWidth 32) str).map fun x =>
        (x.1, x.2.map fun v => (v.toNat : ℤ))

end IntegerType

/-! ## Numbers as they are to be read -/

/-- A string without its sign: the base, and the characters that are to be digits. -/
inductive Shape where
  | hexadecimal (digits : List UInt8)
  | binary (digits : List UInt8)
  | octal (digits : List UInt8)
  | decimal (digits : List UInt8)

def shape : List UInt8 → Shape
  | [] => .decimal []
  | [c] => if c = 0x30 then .octal [] else .decimal [c]
  | c :: x :: digits =>
      if c = 0x30 then
        if x = 0x78 ∨ x = 0x58 then .hexadecimal digits
        else if x = 0x62 ∨ x = 0x42 then .binary digits
        else .octal (x :: digits)
      else .decimal (c :: x :: digits)

def hexDigit (c : UInt8) : Option ℕ :=
  if 0x30 ≤ c ∧ c ≤ 0x39 then some (c.toNat - 0x30)
  else if 0x61 ≤ c ∧ c ≤ 0x66 then some (c.toNat - 0x61 + 10)
  else if 0x41 ≤ c ∧ c ≤ 0x46 then some (c.toNat - 0x41 + 10)
  else none

/-- The digits of a base up to ten. -/
def digitBelow (b : ℕ) (c : UInt8) : Option ℕ :=
  if 0x30 ≤ c.toNat ∧ c.toNat < 0x30 + b then some (c.toNat - 0x30) else none

/-- The number that a string without a sign stands for. -/
def Shape.magnitude : Shape → Option ℕ
  | .hexadecimal ds => if ds = [] then none else numeral hexDigit 16 ds
  | .binary ds => if ds = [] then none else numeral (digitBelow 2) 2 ds
  | .octal ds => numeral (digitBelow 8) 8 ds
  | .decimal ds => if ds = [] then none else numeral (digitBelow 10) 10 ds

namespace IntegerType

/-- Magnitudes of the type are below. -/
def bound (T : IntegerType) : ℕ := if T.signed then 2 ^ (T.width - 1) else 2 ^ T.width

/-- Whether the type takes the string for a negative number. -/
def negative (T : IntegerType) (s : List UInt8) : Bool := T.signed && s.head? == some 0x2D

/-- The string without its sign. -/
def body (T : IntegerType) (s : List UInt8) : List UInt8 := if T.negative s then s.tail else s

def withSignOf (T : IntegerType) (s : List UInt8) (v : ℕ) : ℤ := if T.negative s then -v else v

/-- The number of the type that a string stands for. -/
def value (T : IntegerType) (s : List UInt8) : Option ℤ :=
  ((shape (T.body s)).magnitude.filter (· < T.bound)).map (T.withSignOf s)

end IntegerType

/-- What a conversion is to return for a number, and in want of one. -/
def Gives {α : Type} (x : Option (HandleResult × Option α)) : Option α → Prop
  | some v => x = some (.okay, some v)
  | none => ∃ val, x = some (.argumentOutOfRange, val)

/-- The string is parsed exactly. -/
def IntegerType.Exact (T : IntegerType) (temp : BitVec 64) (s rest : List UInt8) : Prop :=
  Gives (T.fromString temp (s ++ 0 :: rest)) (T.value s)

end Beelzebub.Conversions
