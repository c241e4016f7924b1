import Beelzebub.Utils.Utf8

/-!
# Base64

The kernel and the debugger each have the tables of their own, with the same entries.  What is
written as four characters is read as three bytes again.
-/

namespace Beelzebub.Djinn

abbrev Packet := List UInt8

/-! ## The code -/

/-- `Base64Chars`, with the terminator of the literal. -/
def base64Chars : List UInt8 :=
  ['A', 'B', 'C', 'D', 'E', 'F', 'G', 'H', 'I', 'J', 'K', 'L', 'M', 'N', 'O', 'P', 'Q', 'R', 'S',
    'T', 'U', 'V', 'W', 'X', 'Y', 'Z', 'a', 'b', 'c', 'd', 'e', 'f', 'g', 'h', 'i', 'j', 'k', 'l',
    'm', 'n', 'o', 'p', 'q', 'r', 's', 't', 'u', 'v', 'w', 'x', 'y', 'z', '0', '1', '2', '3', '4',
    '5', '6', '7', '8', '9', '+', '/', '\x00'].map fun c => UInt8.ofNat c.toNat

/-- `Base64Values`. -/
def base64Values : List UInt32 :=
  [0, 0, 0, 0, 0, 0, 0, 0, 0, 0, 0, 0, 0, 0, 0, 0,
    0, 0, 0, 0, 0, 0, 0, 0, 0, 0, 0, 0, 0, 0, 0, 0,
    0, 0, 0, 0, 0, 0, 0, 0, 0, 0, 0, 62, 63, 62, 62, 63,
    52, 53, 54, 55, 56, 57, 58, 59, 60, 61, 0, 0, 0, 0, 0, 0,
    0, 0, 1, 2, 3, 4, 5, 6, 7, 8, 9, 10, 11, 12, 13, 14,
    15, 16, 17, 18, 19, 20, 21, 22, 23, 24, 25, 0, 0, 0, 0, 63,
    0, 26, 27, 28, 29, 30, 31, 32, 33, 34, 35, 36, 37, 38, 39, 40,
    41, 42, 43, 44, 45, 46, 47, 48, 49, 50, 51] ++ List.replicate 133 0

/-- An entry of `Base64Chars`.  An index beyond the table is a fault. -/
def base64Char (i : UInt8) : Option UInt8 := base64Chars[i.toNat]?

def base64Value (c : UInt8) : Option UInt32 := base64Values[c.toNat]?

/-! The sextets of three bytes. -/

def sextet₁ (a : UInt8) : UInt8 := a >>> 2

def sextet₂ (a b : UInt8) : UInt8 := (a &&& 0x03) <<< 4 ||| b >>> 4

def sextet₃ (b c : UInt8) : UInt8 := (b &&& 0x0f) <<< 2 ||| c >>> 6

def sextet₄ (c : UInt8) : UInt8 := c &&& 0x3f

/-- The number that four characters stand for. -/
def combine (v₁ v₂ v₃ v₄ : UInt32) : UInt32 := v₁ <<< 18 ||| v₂ <<< 12 ||| v₃ <<< 6 ||| v₄

/-- A byte stored behind what a buffer of some size holds.  A store beyond it is a fault. -/
def push (size : ℕ) (buff : List UInt8) (c : UInt8) : Option (List UInt8) :=
  if buff.length < size then some (buff ++ [c]) else none

/-- Four characters stored as three bytes. -/
def unpack₃ (size : ℕ) (buff : List UInt8) (c₁ c₂ c₃ c₄ : UInt8) : Option (List UInt8) := do
  let v₁ ← base64Value c₁
  let v₂ ← base64Value c₂
  let v₃ ← base64Value c₃
  let v₄ ← base64Value c₄
  let n := combine v₁ v₂ v₃ v₄
  let buff ← push size buff (n >>> 16).toUInt8
  let buff ← push size buff (n >>> 8 &&& 0xFF).toUInt8
  push size buff (n &&& 0xFF).toUInt8

/-- With one padding sextet there are two bytes. -/
def unpack₂ (size : ℕ) (buff : List UInt8) (c₁ c₂ c₃ : UInt8) : Option (List UInt8) := do
  let v₁ ← base64Value c₁
  let v₂ ← base64Value c₂
  let v₃ ← base64Value c₃
  let n := v₁ <<< 18 ||| v₂ <<< 12 ||| v₃ <<< 6
  let buff ← push size buff (n >>> 16).toUInt8
  push size buff (n >>> 8 &&& 0xFF).toUInt8

/-- With two there is just one. -/
def unpack₁ (size : ℕ) (buff : List UInt8) (c₁ c₂ : UInt8) : Option (List UInt8) := do
  let v₁ ← base64Value c₁
  let v₂ ← base64Value c₂
  let n := v₁ <<< 18 ||| v₂ <<< 12
  push size buff (n >>> 16).toUInt8

/-! ## The encoding -/

/-- The character of a sextet. -/
def digit (i : UInt8) : UInt8 := base64Chars.getD i.toNat 0

/-- What a packet is written as. -/
def base64 : Packet → List UInt8
  | a :: b :: c :: rest =>
      digit (sextet₁ a) :: digit (sextet₂ a b) :: digit (sextet₃ b c) :: digit (sextet₄ c) ::
        base64 rest
  | [a, b] => [digit (sextet₁ a), digit (sextet₂ a b), digit (sextet₃ b 0), 61]
  | [a] => [digit (sextet₁ a), digit (sextet₂ a 0), 61, 61]
  | [] => []

/-! ## Sextets -/

variable {a b c i : UInt8} {buff : List UInt8} {size : ℕ}

theorem shiftLeft_or {x y : ℕ} (k n : ℕ) (h : y < 2 ^ k) :
    x * 2 ^ (k + n) ||| y * 2 ^ n = (x * 2 ^ k + y) * 2 ^ n := by
  have hor := Nat.two_pow_add_eq_or_of_lt h x
  rw [Nat.mul_comm (2 ^ k) x] at hor
  rw [hor, Nat.pow_add, ← Nat.mul_assoc, ← Nat.shiftLeft_eq _ n, ← Nat.shiftLeft_eq _ n,
    ← Nat.shiftLeft_eq _ n, Nat.shiftLeft_or_distrib]

theorem sextet₁_toNat (a : UInt8) : (sextet₁ a).toNat = a.toNat / 4 := by
  unfold sextet₁
  rw [UInt8.toNat_shiftRight, Nat.shiftRight_eq_div_pow]
  rfl

theorem sextet₂_toNat (a b : UInt8) : (sextet₂ a b).toNat = a.toNat % 4 * 16 + b.toNat / 16 := by
  have hb : b.toNat / 16 < 2 ^ 4 := by
    have := b.toNat_lt
    omega
  have ha : a.toNat % 4 * 16 % 2 ^ 8 = a.toNat % 4 * 16 := by omega
  have hor := shiftLeft_or (x := a.toNat % 4) 4 0 hb
  rw [Nat.pow_zero, Nat.mul_one, Nat.mul_one] at hor
  unfold sextet₂
  rw [UInt8.toNat_or, UInt8.toNat_shiftLeft, UInt8.toNat_and, UInt8.toNat_shiftRight,
    Nat.shiftLeft_eq, Nat.shiftRight_eq_div_pow]
  show (a.toNat &&& 2 ^ 2 - 1) * 16 % 2 ^ 8 ||| b.toNat / 16 = _
  rw [Nat.and_two_pow_sub_one_eq_mod, ha]
  exact hor

theorem sextet₃_toNat (b c : UInt8) : (sextet₃ b c).toNat = b.toNat % 16 * 4 + c.toNat / 64 := by
  have hc : c.toNat / 64 < 2 ^ 2 := by
    have := c.toNat_lt
    omega
  have hb : b.toNat % 16 * 4 % 2 ^ 8 = b.toNat % 16 * 4 := by omega
  have hor := shiftLeft_or (x := b.toNat % 16) 2 0 hc
  rw [Nat.pow_zero, Nat.mul_one, Nat.mul_one] at hor
  unfold sextet₃
  rw [UInt8.toNat_or, UInt8.toNat_shiftLeft, UInt8.toNat_and, UInt8.toNat_shiftRight,
    Nat.shiftLeft_eq, Nat.shiftRight_eq_div_pow]
  show (b.toNat &&& 2 ^ 4 - 1) * 4 % 2 ^ 8 ||| c.toNat / 64 = _
  rw [Nat.and_two_pow_sub_one_eq_mod, hb]
  exact hor

theorem sextet₄_toNat (c : UInt8) : (sextet₄ c).toNat = c.toNat % 64 := by
  unfold sextet₄
  rw [UInt8.toNat_and]
  exact Nat.and_two_pow_sub_one_eq_mod c.toNat 6

theorem sextet₁_lt (a : UInt8) : (sextet₁ a).toNat < 64 := by
  have := a.toNat_lt
  rw [sextet₁_toNat]
  omega

theorem sextet₂_lt (a b : UInt8) : (sextet₂ a b).toNat < 64 := by
  have := b.toNat_lt
  rw [sextet₂_toNat]
  omega

theorem sextet₃_lt (b c : UInt8) : (sextet₃ b c).toNat < 64 := by
  have := c.toNat_lt
  rw [sextet₃_toNat]
  omega

theorem sextet₄_lt (c : UInt8) : (sextet₄ c).toNat < 64 := by
  rw [sextet₄_toNat]
  exact Nat.mod_lt _ (by decide)

theorem combine_toNat {v₁ v₂ v₃ v₄ : UInt32} (h₁ : v₁.toNat < 64) (h₂ : v₂.toNat < 64)
    (h₃ : v₃.toNat < 64) (h₄ : v₄.toNat < 64) :
    (combine v₁ v₂ v₃ v₄).toNat =
      v₁.toNat * 2 ^ 18 + v₂.toNat * 2 ^ 12 + v₃.toNat * 2 ^ 6 + v₄.toNat := by
  unfold combine
  rw [UInt32.toNat_or, UInt32.toNat_or, UInt32.toNat_or, UInt32.toNat_shiftLeft,
    UInt32.toNat_shiftLeft, UInt32.toNat_shiftLeft, Nat.shiftLeft_eq, Nat.shiftLeft_eq,
    Nat.shiftLeft_eq]
  show v₁.toNat * 2 ^ (6 + 12) % 2 ^ 32 ||| v₂.toNat * 2 ^ 12 % 2 ^ 32 |||
    v₃.toNat * 2 ^ 6 % 2 ^ 32 ||| v₄.toNat = _
  rw [Nat.mod_eq_of_lt (by omega), Nat.mod_eq_of_lt (by omega), Nat.mod_eq_of_lt (by omega),
    shiftLeft_or 6 12 h₂]
  have h₃' := shiftLeft_or (x := v₁.toNat * 2 ^ 6 + v₂.toNat) 6 6 h₃
  have h₄' := shiftLeft_or (x := (v₁.toNat * 2 ^ 6 + v₂.toNat) * 2 ^ 6 + v₃.toNat) 6 0 h₄
  rw [Nat.pow_zero, Nat.mul_one, Nat.mul_one] at h₄'
  refine (congrArg (· ||| v₄.toNat) h₃').trans (h₄'.trans ?_)
  omega

theorem combine_sextets (a b c : UInt8) :
    (combine (sextet₁ a).toUInt32 (sextet₂ a b).toUInt32 (sextet₃ b c).toUInt32
      (sextet₄ c).toUInt32).toNat = a.toNat * 2 ^ 16 + b.toNat * 2 ^ 8 + c.toNat := by
  have ha := a.toNat_lt
  have hb := b.toNat_lt
  have hc := c.toNat_lt
  have h₁ : (sextet₁ a).toUInt32.toNat < 64 := sextet₁_lt a
  have h₂ : (sextet₂ a b).toUInt32.toNat < 64 := sextet₂_lt a b
  have h₃ : (sextet₃ b c).toUInt32.toNat < 64 := sextet₃_lt b c
  have h₄ : (sextet₄ c).toUInt32.toNat < 64 := sextet₄_lt c
  rw [combine_toNat h₁ h₂ h₃ h₄]
  show (sextet₁ a).toNat * 2 ^ 18 + (sextet₂ a b).toNat * 2 ^ 12 + (sextet₃ b c).toNat * 2 ^ 6 +
    (sextet₄ c).toNat = _
  rw [sextet₁_toNat, sextet₂_toNat, sextet₃_toNat, sextet₄_toNat]
  omega

variable {n : UInt32}

theorem byte₁ (h : n.toNat = a.toNat * 2 ^ 16 + b.toNat * 2 ^ 8 + c.toNat) :
    (n >>> 16).toUInt8 = a := by
  have ha := a.toNat_lt
  have hb := b.toNat_lt
  have hc := c.toNat_lt
  refine UInt8.toNat_inj.mp ?_
  rw [UInt32.toNat_toUInt8, UInt32.toNat_shiftRight, Nat.shiftRight_eq_div_pow]
  show n.toNat / 2 ^ 16 % 2 ^ 8 = a.toNat
  omega

theorem byte₂ (h : n.toNat = a.toNat * 2 ^ 16 + b.toNat * 2 ^ 8 + c.toNat) :
    (n >>> 8 &&& 0xFF).toUInt8 = b := by
  have hb := b.toNat_lt
  have hc := c.toNat_lt
  refine UInt8.toNat_inj.mp ?_
  rw [UInt32.toNat_toUInt8, UInt32.toNat_and, UInt32.toNat_shiftRight, Nat.shiftRight_eq_div_pow]
  show (n.toNat / 2 ^ 8 &&& 2 ^ 8 - 1) % 2 ^ 8 = b.toNat
  rw [Nat.and_two_pow_sub_one_eq_mod]
  omega

theorem byte₃ (h : n.toNat = a.toNat * 2 ^ 16 + b.toNat * 2 ^ 8 + c.toNat) :
    (n &&& 0xFF).toUInt8 = c := by
  have hc := c.toNat_lt
  refine UInt8.toNat_inj.mp ?_
  rw [UInt32.toNat_toUInt8, UInt32.toNat_and]
  show (n.toNat &&& 2 ^ 8 - 1) % 2 ^ 8 = c.toNat
  rw [Nat.and_two_pow_sub_one_eq_mod]
  omega

/-- Absent bytes count as zeros. -/
theorem sextet₂_zero (a : UInt8) : sextet₂ a 0 = (a &&& 0x03) <<< 4 := UInt8.or_zero

theorem sextet₃_zero (b : UInt8) : sextet₃ b 0 = (b &&& 0x0f) <<< 2 := UInt8.or_zero

/-! ## Characters -/

/-- What both tables have to say about a sextet.  Its character is neither padding nor an end. -/
theorem digit_spec (h : i.toNat < 64) :
    base64Char i = some (digit i) ∧ base64Value (digit i) = some i.toUInt32 ∧
      digit i ≠ 61 ∧ digit i ≠ 10 ∧ digit i ≠ 13 := by
  have hall : ∀ k : Fin 64, base64Char (UInt8.ofNat k) = some (digit (UInt8.ofNat k)) ∧
      base64Value (digit (UInt8.ofNat k)) = some (UInt8.ofNat k).toUInt32 ∧
      digit (UInt8.ofNat k) ≠ 61 ∧ digit (UInt8.ofNat k) ≠ 10 ∧ digit (UInt8.ofNat k) ≠ 13 := by
    decide +kernel
  have hi := hall ⟨i.toNat, h⟩
  rwa [UInt8.ofNat_toNat] at hi

theorem push_ok {c : UInt8} (h : buff.length < size) : push size buff c = some (buff ++ [c]) :=
  if_pos h

theorem unpack₃_spec (h : buff.length + 3 ≤ size) (a b c : UInt8) :
    unpack₃ size buff (digit (sextet₁ a)) (digit (sextet₂ a b)) (digit (sextet₃ b c))
      (digit (sextet₄ c)) = some (buff ++ [a, b, c]) := by
  have hn := combine_sextets a b c
  unfold unpack₃
  rw [(digit_spec (sextet₁_lt a)).2.1, (digit_spec (sextet₂_lt a b)).2.1,
    (digit_spec (sextet₃_lt b c)).2.1, (digit_spec (sextet₄_lt c)).2.1]
  simp only [Option.bind_eq_bind, Option.bind_some]
  rw [byte₁ hn, byte₂ hn, byte₃ hn, push_ok (by omega), Option.bind_some,
    push_ok (by rw [List.length_append, List.length_singleton]; omega), Option.bind_some,
    push_ok (by simp only [List.length_append, List.length_singleton]; omega), List.append_assoc,
    List.append_assoc]
  rfl

theorem unpack₂_spec (h : buff.length + 2 ≤ size) (a b : UInt8) :
    unpack₂ size buff (digit (sextet₁ a)) (digit (sextet₂ a b)) (digit (sextet₃ b 0)) =
      some (buff ++ [a, b]) := by
  have hn := combine_sextets a b 0
  have hpad : combine (sextet₁ a).toUInt32 (sextet₂ a b).toUInt32 (sextet₃ b 0).toUInt32
      (sextet₄ 0).toUInt32 = (sextet₁ a).toUInt32 <<< 18 ||| (sextet₂ a b).toUInt32 <<< 12 |||
        (sextet₃ b 0).toUInt32 <<< 6 := UInt32.or_zero
  rw [hpad] at hn
  unfold unpack₂
  rw [(digit_spec (sextet₁_lt a)).2.1, (digit_spec (sextet₂_lt a b)).2.1,
    (digit_spec (sextet₃_lt b 0)).2.1]
  simp only [Option.bind_eq_bind, Option.bind_some]
  rw [byte₁ hn, byte₂ hn, push_ok (by omega), Option.bind_some,
    push_ok (by rw [List.length_append, List.length_singleton]; omega), List.append_assoc]
  rfl

theorem unpack₁_spec (h : buff.length + 1 ≤ size) (a : UInt8) :
    unpack₁ size buff (digit (sextet₁ a)) (digit (sextet₂ a 0)) = some (buff ++ [a]) := by
  have hn := combine_sextets a 0 0
  have hpad : combine (sextet₁ a).toUInt32 (sextet₂ a 0).toUInt32 (sextet₃ 0 0).toUInt32
      (sextet₄ 0).toUInt32 = (sextet₁ a).toUInt32 <<< 18 ||| (sextet₂ a 0).toUInt32 <<< 12 :=
    UInt32.or_zero.trans UInt32.or_zero
  rw [hpad] at hn
  unfold unpack₁
  rw [(digit_spec (sextet₁_lt a)).2.1, (digit_spec (sextet₂_lt a 0)).2.1]
  simp only [Option.bind_eq_bind, Option.bind_some]
  rw [byte₁ hn, push_ok (by omega)]

/-! ## Encoded packets -/

variable {p : Packet}

/-- A packet is taken apart into threes. -/
theorem packet_induction {P : Packet → Prop} (nil : P []) (one : ∀ a, P [a])
    (two : ∀ a b, P [a, b]) (three : ∀ a b c rest, P rest → P (a :: b :: c :: rest)) (p : Packet) :
    P p := by
  induction p using base64.induct with
  | case1 a b c rest ih => exact three a b c rest ih
  | case2 a b => exact two a b
  | case3 a => exact one a
  | case4 => exact nil

theorem base64_length (p : Packet) : (base64 p).length = 4 * ((p.length + 2) / 3) := by
  induction p using packet_induction with
  | nil => simp [base64]
  | one a => simp [base64]
  | two a b => simp [base64]
  | three a b c rest ih =>
      show (base64 rest).length + 4 = 4 * ((rest.length + 3 + 2) / 3)
      rw [ih]
      omega

/-- No end of a packet, and nothing that is taken out, is within one. -/
theorem base64_mem (p : Packet) : ∀ x ∈ base64 p, x ≠ 10 ∧ x ≠ 13 := by
  have hdigit {i : UInt8} (h : i.toNat < 64) : digit i ≠ 10 ∧ digit i ≠ 13 := (digit_spec h).2.2.2
  induction p using packet_induction with
  | nil => exact fun x hx => nomatch hx
  | one a =>
      intro x hx
      simp only [base64, List.mem_cons, List.not_mem_nil, or_false] at hx
      rcases hx with rfl | rfl | rfl | rfl
      · exact hdigit (sextet₁_lt a)
      · exact hdigit (sextet₂_lt a 0)
      all_goals decide
  | two a b =>
      intro x hx
      simp only [base64, List.mem_cons, List.not_mem_nil, or_false] at hx
      rcases hx with rfl | rfl | rfl | rfl
      · exact hdigit (sextet₁_lt a)
      · exact hdigit (sextet₂_lt a b)
      · exact hdigit (sextet₃_lt b 0)
      · decide
  | three a b c rest ih =>
      intro x hx
      simp only [base64, List.mem_cons] at hx
      rcases hx with rfl | rfl | rfl | rfl | hx
      · exact hdigit (sextet₁_lt a)
      · exact hdigit (sextet₂_lt a b)
      · exact hdigit (sextet₃_lt b c)
      · exact hdigit (sextet₄_lt c)
      · exact ih x hx

end Beelzebub.Djinn
