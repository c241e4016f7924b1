import Beelzebub.Utils.IntegerConversions

/-!
# When integers are parsed exactly

What the conversions make of each string, in terms of its digits, and for which strings that is
the number the string stands for.
-/

namespace Beelzebub.Conversions
open Numerals Strings

variable {w shift limit : ℕ} {digit : UInt8 → Option UInt64} {t rest : List UInt8}
  {pre ds : List ℕ}

/-! ## Digits of a base that is a power of two -/

theorem ofNat_shift_or (w n : ℕ) {d : UInt64} (hd : d.toNat < 2 ^ shift) :
    BitVec.ofNat w n <<< shift ||| d.toBitVec.setWidth w =
      BitVec.ofNat w (2 ^ shift * n + d.toNat) := by
  have hdigit : d.toBitVec.setWidth w = BitVec.ofNat w d.toNat := (BitVec.ofNat_toNat w _).symm
  have hshift : BitVec.ofNat w n <<< shift = BitVec.ofNat w (2 ^ shift * n) := by
    refine BitVec.eq_of_toNat_eq ?_
    rw [BitVec.toNat_shiftLeft, BitVec.toNat_ofNat, BitVec.toNat_ofNat, Nat.shiftLeft_eq,
      Nat.mod_mul_mod, Nat.mul_comm]
  rw [hdigit, hshift, Nat.two_pow_add_eq_or_of_lt hd, BitVec.ofNat_or]

/-- A character as a digit, as the code takes it. -/
def digitNumber (digit : UInt8 → Option UInt64) (c : UInt8) : Option ℕ := (digit c).map UInt64.toNat

theorem digitNumber_eq_some {c : UInt8} {d : ℕ} :
    digitNumber digit c = some d ↔ ∃ x, digit c = some x ∧ x.toNat = d := Option.map_eq_some_iff

theorem digitNumber_eq_none {c : UInt8} : digitNumber digit c = none ↔ digit c = none :=
  Option.map_eq_none_iff

/-- The loop from a place in the string on, when the digits before made `pre`. -/
theorem digitsOf_some (hdigit : ∀ c d, digitNumber digit c = some d → d < 2 ^ shift) (ht : 0 ∉ t)
    (hlen : pre.length + t.length ≤ limit) (h : t.mapM (digitNumber digit) = some ds) :
    digitsOf w digit shift limit (t ++ 0 :: rest) pre.length
        (BitVec.ofNat w (number (2 ^ shift) pre)) =
      some (some (pre.length + t.length, BitVec.ofNat w (number (2 ^ shift) (pre ++ ds)))) := by
  induction t generalizing pre ds with
  | nil =>
      obtain rfl : [] = ds := Option.some.inj h
      rw [List.append_nil]
      exact if_neg fun h => h.1 rfl
  | cons c t ih =>
      obtain ⟨hc, ht⟩ := List.ne_and_not_mem_of_not_mem_cons ht
      obtain ⟨d, ds, hd, hds, rfl⟩ := mapM_cons_eq_some.mp h
      obtain ⟨x, hx, rfl⟩ := digitNumber_eq_some.mp hd
      rw [List.length_cons] at hlen ⊢
      have hnext := @ih (pre ++ [x.toNat]) ds ht (by rw [List.length_append]; simp; omega) hds
      rw [List.length_append, number_concat, ← ofNat_shift_or w _ (hdigit c _ hd),
        List.append_assoc] at hnext
      show (if c ≠ 0 ∧ pre.length < limit then _ else _) = _
      rw [if_pos ⟨hc.symm, by omega⟩, hx]
      refine hnext.trans ?_
      rw [List.length_singleton, Nat.add_assoc, Nat.add_comm 1]
      rfl

/-- A wrong digit ends the loop, unless there are too many before. -/
theorem digitsOf_none (ht : 0 ∉ t) (i : ℕ) (res : BitVec w) (hlen : i + t.length ≤ limit)
    (h : t.mapM (digitNumber digit) = none) :
    digitsOf w digit shift limit (t ++ 0 :: rest) i res = some none := by
  induction t generalizing i res with
  | nil => exact nomatch h
  | cons c t ih =>
      obtain ⟨hc, ht⟩ := List.ne_and_not_mem_of_not_mem_cons ht
      rw [List.length_cons] at hlen
      show (if c ≠ 0 ∧ i < limit then _ else _) = _
      rw [if_pos ⟨hc.symm, by omega⟩]
      cases hd : digit c with
      | none => rfl
      | some d =>
          refine ih ht (i + 1) _ (by omega) ((mapM_cons_eq_none.mp h).resolve_left ?_)
          rw [digitNumber_eq_none, hd]
          exact nofun

/-- Too many digits are told by their number, or one of them is wrong. -/
theorem digitsOf_limit (i : ℕ) (res : BitVec w) (hlen : limit ≤ i + t.length) (hi : i ≤ limit)
    (ht : 0 ∉ t) :
    digitsOf w digit shift limit (t ++ 0 :: rest) i res = some none ∨
      ∃ res', digitsOf w digit shift limit (t ++ 0 :: rest) i res = some (some (limit, res')) := by
  induction t generalizing i res with
  | nil =>
      obtain rfl : i = limit := Nat.le_antisymm hi hlen
      exact .inr ⟨res, if_neg fun h => h.1 rfl⟩
  | cons c t ih =>
      obtain ⟨hc, ht⟩ := List.ne_and_not_mem_of_not_mem_cons ht
      rw [List.length_cons] at hlen
      rcases Nat.lt_or_eq_of_le hi with hlt | rfl
      · cases hd : digit c with
        | none =>
            refine .inl ((if_pos ⟨hc.symm, hlt⟩).trans ?_)
            rw [hd]
        | some d =>
            have hstep : digitsOf w digit shift limit (c :: t ++ 0 :: rest) i res =
                digitsOf w digit shift limit (t ++ 0 :: rest) (i + 1)
                  ((res <<< shift) ||| d.toBitVec.setWidth w) := by
              refine (if_pos ⟨hc.symm, hlt⟩).trans ?_
              rw [hd]
              rfl
            rw [hstep]
            exact ih (i + 1) _ (by omega) hlt ht
      · exact .inr ⟨res, if_neg fun h => Nat.lt_irrefl _ h.2⟩

/-- A conversion of digits accepts those that are fewer than the limit, and not `bad` by number. -/
theorem digitsOf_gives (hdigit : ∀ c d, digitNumber digit c = some d → d < 2 ^ shift)
    (bad : ℕ → Prop) [DecidablePred bad] (hbad : bad limit) (ht : 0 ∉ t) :
    Gives ((digitsOf w digit shift limit (t ++ 0 :: rest) 0 0).map fun
        | none => (.argumentOutOfRange, none)
        | some (i, res) => if bad i then (.argumentOutOfRange, none) else (.okay, some res))
      (if t.length < limit ∧ ¬bad t.length then
        (numeral (digitNumber digit) (2 ^ shift) t).map (BitVec.ofNat w) else none) := by
  rcases Nat.lt_or_ge t.length limit with hlt | hge
  · cases h : t.mapM (digitNumber digit) with
    | none =>
        have hrun := @digitsOf_none w shift limit digit t rest ht 0 0 (by omega) h
        have hnone : numeral (digitNumber digit) (2 ^ shift) t = none := by
          unfold numeral
          rw [h]
          rfl
        rw [hrun, hnone, Option.map_none, ite_self]
        exact ⟨none, rfl⟩
    | some ds =>
        have hrun := @digitsOf_some w shift limit digit t rest [] ds hdigit ht (by simp; omega) h
        have hsome : numeral (digitNumber digit) (2 ^ shift) t = some (number (2 ^ shift) ds) :=
          numeral_eq_some.mpr ⟨ds, h, rfl⟩
        rw [List.length_nil, Nat.zero_add, List.nil_append] at hrun
        replace hrun : digitsOf w digit shift limit (t ++ 0 :: rest) 0 0 =
          some (some (t.length, BitVec.ofNat w (number (2 ^ shift) ds))) := hrun
        rw [hrun, hsome]
        by_cases hb : bad t.length
        · rw [if_neg fun h => h.2 hb]
          exact ⟨none, congrArg some (if_pos hb)⟩
        · rw [if_pos ⟨hlt, hb⟩]
          exact congrArg some (if_neg hb)
  · rw [if_neg fun h => Nat.not_lt.mpr hge h.1]
    rcases @digitsOf_limit w shift limit digit t rest 0 0 (by omega) (Nat.zero_le _) ht with
      hrun | ⟨res', hrun⟩
    · rw [hrun]
      exact ⟨none, rfl⟩
    · rw [hrun]
      exact ⟨none, congrArg some (if_pos hbad)⟩

/-! ## Decimals -/

/-- The test of the loop over decimal digits, after so many of them: ten times what was read is
less than it was in the round before, as far as the type holds it. -/
def Wraps (w : ℕ) (ds : List ℕ) (k : ℕ) : Prop :=
  10 * number 10 (ds.take k) % 2 ^ w < 10 * number 10 (ds.take (k - 1)) % 2 ^ w

instance (w : ℕ) (ds : List ℕ) (k : ℕ) : Decidable (Wraps w ds k) :=
  inferInstanceAs (Decidable (_ < _))

/-- The test is met by one of the digits from the `i`-th on. -/
def WrapsFrom (w i : ℕ) (ds : List ℕ) : Prop := ∃ k < ds.length, i ≤ k ∧ Wraps w ds k

instance (w i : ℕ) (ds : List ℕ) : Decidable (WrapsFrom w i ds) :=
  inferInstanceAs (Decidable (∃ k < ds.length, i ≤ k ∧ Wraps w ds k))

theorem wrapsFrom_step {i : ℕ} (hi : i < ds.length) :
    WrapsFrom w i ds ↔ Wraps w ds i ∨ WrapsFrom w (i + 1) ds := by
  constructor
  · rintro ⟨k, hlt, hle, hk⟩
    rcases Nat.eq_or_lt_of_le hle with rfl | hgt
    · exact .inl hk
    · exact .inr ⟨k, hlt, hgt, hk⟩
  · rintro (hi' | ⟨k, hlt, hle, hk⟩)
    · exact ⟨i, hi, Nat.le_refl i, hi'⟩
    · exact ⟨k, hlt, Nat.le_of_succ_le hle, hk⟩

theorem not_wrapsFrom_length : ¬WrapsFrom w ds.length ds :=
  fun ⟨_, hlt, hle, _⟩ => Nat.not_lt.mpr hle hlt

theorem toNat_tenfold (w n : ℕ) : (BitVec.ofNat w n * 10).toNat = 10 * n % 2 ^ w := by
  show (BitVec.ofNat w n * BitVec.ofNat w 10).toNat = _
  rw [← BitVec.ofNat_mul, BitVec.toNat_ofNat, Nat.mul_comm]

theorem ofNat_tenfold (w n : ℕ) : BitVec.ofNat w n * 10 = BitVec.ofNat w (10 * n) :=
  BitVec.eq_of_toNat_eq (by rw [toNat_tenfold, BitVec.toNat_ofNat])

theorem digitBelow_ten (c : UInt8) :
    digitBelow 10 c = if c < 0x30 ∨ c ≥ 0x3A then none else some (c - 0x30).toNat := by
  have hlow : c < 0x30 ↔ c.toNat < 0x30 := UInt8.lt_iff_toNat_lt
  have hhigh : c ≥ 0x3A ↔ 0x3A ≤ c.toNat := UInt8.le_iff_toNat_le
  unfold digitBelow
  rw [if_congr (or_congr hlow hhigh) rfl rfl]
  by_cases h : c.toNat < 0x30 ∨ 0x3A ≤ c.toNat
  · rw [if_pos h, if_neg (by omega)]
  · have hle : (0x30 : UInt8) ≤ c := UInt8.le_iff_toNat_le.mpr (by
      show 0x30 ≤ c.toNat
      omega)
    rw [if_neg h, if_pos (by omega), UInt8.toNat_sub_of_le c 0x30 hle]
    rfl

/-- The loop over decimal digits from a place in the string on, when those before made `pre`. -/
theorem decimalOf_gives (ht : 0 ∉ t) :
    Gives (StrToUInt.decimalOf w (t ++ 0 :: rest) (BitVec.ofNat w (number 10 pre))
        (BitVec.ofNat w (10 * number 10 pre.dropLast)))
      ((t.mapM (digitBelow 10)).bind fun ds =>
        if WrapsFrom w pre.length (pre ++ ds) then none
        else some (BitVec.ofNat w (number 10 (pre ++ ds)))) := by
  induction t generalizing pre with
  | nil =>
      have hnil : ([] : List UInt8).mapM (digitBelow 10) = some [] := rfl
      rw [hnil, Option.bind_some, List.append_nil, if_neg not_wrapsFrom_length]
      exact if_neg fun h => h rfl
  | cons c t ih =>
      obtain ⟨hc, ht⟩ := List.ne_and_not_mem_of_not_mem_cons ht
      have hwraps (ds : List ℕ) : BitVec.ofNat w (number 10 pre) * 10 <
          BitVec.ofNat w (10 * number 10 pre.dropLast) ↔ Wraps w (pre ++ ds) pre.length := by
        unfold Wraps
        rw [BitVec.lt_def, toNat_tenfold, BitVec.toNat_ofNat, List.take_left' rfl,
          List.take_append_of_le_length (Nat.sub_le _ _), List.dropLast_eq_take]
      have hlen (d : ℕ) (ds : List ℕ) : pre.length < (pre ++ d :: ds).length := by
        rw [List.length_append, List.length_cons]
        omega
      show Gives (if c ≠ 0 then _ else _) _
      rw [if_pos hc.symm]
      split
      next hwrap =>
        cases h : (c :: t).mapM (digitBelow 10) with
        | none => exact ⟨_, rfl⟩
        | some ds =>
            obtain ⟨d, ds, -, -, rfl⟩ := mapM_cons_eq_some.mp h
            rw [Option.bind_some,
              if_pos ((wrapsFrom_step (hlen d ds)).mpr (.inl ((hwraps _).mp hwrap)))]
            exact ⟨_, rfl⟩
      next hwrap =>
        have hdigit := digitBelow_ten c
        split
        next hbad =>
          rw [if_pos hbad] at hdigit
          rw [mapM_cons_eq_none.mpr (.inl hdigit)]
          exact ⟨_, rfl⟩
        next hgood =>
          rw [if_neg hgood] at hdigit
          have hstate : BitVec.ofNat w (number 10 pre) * 10 +
              (c - 0x30).toUInt64.toBitVec.setWidth w =
                BitVec.ofNat w (number 10 (pre ++ [(c - 0x30).toNat])) := by
            rw [number_concat, ofNat_tenfold, BitVec.ofNat_add]
            exact congrArg _ (BitVec.ofNat_toNat w _).symm
          have hnext := @ih (pre ++ [(c - 0x30).toNat]) ht
          rw [← hstate, List.dropLast_concat, ← ofNat_tenfold, List.length_append] at hnext
          cases h : t.mapM (digitBelow 10) with
          | none =>
              rw [mapM_cons_eq_none.mpr (.inr h)]
              rw [h] at hnext
              exact hnext
          | some ds =>
              rw [mapM_cons_eq_some.mpr ⟨_, _, hdigit, h, rfl⟩, Option.bind_some]
              rw [h, Option.bind_some, List.append_assoc, List.singleton_append] at hnext
              have hsame : WrapsFrom w pre.length (pre ++ (c - 0x30).toNat :: ds) ↔
                  WrapsFrom w (pre.length + 1) (pre ++ (c - 0x30).toNat :: ds) := by
                rw [wrapsFrom_step (hlen _ ds), or_iff_right fun h => hwrap ((hwraps _).mpr h)]
              rw [if_congr hsame rfl rfl]
              exact hnext

/-! ## The digits of the code -/

/-- A table of all characters. -/
theorem forall_char {p : UInt8 → Prop} (h : ∀ n < 256, p (UInt8.ofNat n)) (c : UInt8) : p c := by
  have hc := h c.toNat c.toNat_lt
  rwa [UInt8.ofNat_toNat] at hc

theorem digitNumber_digit8 : digitNumber digit8 = digitBelow 8 :=
  funext (forall_char (by decide +kernel))

theorem digitNumber_digit2 : digitNumber digit2 = digitBelow 2 :=
  funext (forall_char (by decide +kernel))

/-- A letter that is a hexadecimal digit counts too little. -/
theorem digitNumber_digit16 (c : UInt8) :
    digitNumber digit16 c =
      (hexDigit c).map fun d => if c < 0x3A then d else d - 9 :=
  forall_char (p := fun c => digitNumber digit16 c =
    (hexDigit c).map fun d => if c < 0x3A then d else d - 9) (by decide +kernel) c

theorem hexDigit_letter (c : UInt8) (d : ℕ) (h : hexDigit c = some d) :
    d < 16 ∧ (¬c < 0x3A → 10 ≤ d) := by
  have htable : ∀ c : UInt8, ∀ d ∈ hexDigit c, d < 16 ∧ (¬c < 0x3A → 10 ≤ d) :=
    forall_char (by decide +kernel)
  exact htable c d h

theorem digitBelow_lt {b : ℕ} (c : UInt8) (d : ℕ) (h : digitBelow b c = some d) : d < b := by
  unfold digitBelow at h
  split at h
  next => exact Option.some.inj h ▸ by omega
  next => exact nomatch h

theorem digit16_lt (c : UInt8) (d : ℕ) (h : digitNumber digit16 c = some d) : d < 2 ^ 4 := by
  rw [digitNumber_digit16] at h
  obtain ⟨d', hd', rfl⟩ := Option.map_eq_some_iff.mp h
  have hlt := (hexDigit_letter c d' hd').1
  split <;> omega

/-! ## What the workers make of a string -/

/-- What is accepted of a string without a sign, and the number that is made of it. -/
def Shape.accepted (w limit16 limit8 : ℕ) : Shape → Option ℕ
  | .hexadecimal ds =>
      if ds.length < limit16 ∧ ds ≠ [] then numeral (digitNumber digit16) 16 ds else none
  | .binary ds => if ds.length < w ∧ ds ≠ [] then numeral (digitBelow 2) 2 ds else none
  | .octal ds => if ds.length < limit8 then numeral (digitBelow 8) 8 ds else none
  | .decimal ds =>
      (ds.mapM (digitBelow 10)).bind fun ns =>
        if WrapsFrom w 0 ns then none else some (number 10 ns % 2 ^ w)

theorem Gives.congr {α : Type} {x : Option (HandleResult × Option α)} {v v' : Option α}
    (h : Gives x v) (hv : v = v') : Gives x v' := hv ▸ h

theorem ite_map_ofNat {p : Prop} [Decidable p] (v : Option ℕ) :
    (if p then v.map (BitVec.ofNat w) else none) =
      (if p then v else none).map (BitVec.ofNat w) := by
  split <;> rfl

theorem base16_gives (limit : ℕ) (ht : 0 ∉ t) :
    Gives (StrToUInt.base16 w limit (t ++ 0 :: rest))
      ((if t.length < limit ∧ t ≠ [] then numeral (digitNumber digit16) 16 t else none).map
        (BitVec.ofNat w)) := by
  refine (digitsOf_gives digit16_lt (fun i => i ≥ limit ∨ i = 0) (.inl (Nat.le_refl limit))
    ht).congr ?_
  rw [ite_map_ofNat]
  refine congrArg _ (if_congr ?_ rfl rfl)
  rw [ne_eq, ← List.length_eq_zero_iff]
  omega

theorem base2_gives (ht : 0 ∉ t) :
    Gives (StrToUInt.base2 w (t ++ 0 :: rest))
      ((if t.length < w ∧ t ≠ [] then numeral (digitBelow 2) 2 t else none).map
        (BitVec.ofNat w)) := by
  have hlt : ∀ c d, digitNumber digit2 c = some d → d < 2 ^ 1 := by
    rw [digitNumber_digit2]
    exact digitBelow_lt
  refine (digitsOf_gives hlt (fun i => i ≥ w ∨ i = 0) (.inl (Nat.le_refl w)) ht).congr ?_
  rw [ite_map_ofNat, digitNumber_digit2]
  refine congrArg _ (if_congr ?_ rfl rfl)
  rw [ne_eq, ← List.length_eq_zero_iff]
  omega

theorem base8_gives (limit : ℕ) (ht : 0 ∉ t) :
    Gives (StrToUInt.base8 w limit (t ++ 0 :: rest))
      ((if t.length < limit then numeral (digitBelow 8) 8 t else none).map (BitVec.ofNat w)) := by
  have hlt : ∀ c d, digitNumber digit8 c = some d → d < 2 ^ 3 := by
    rw [digitNumber_digit8]
    exact digitBelow_lt
  refine (digitsOf_gives hlt (fun i => i ≥ limit) (Nat.le_refl limit) ht).congr ?_
  rw [ite_map_ofNat, digitNumber_digit8]
  refine congrArg _ (if_congr ?_ rfl rfl)
  omega

theorem base10_gives (ht : 0 ∉ t) :
    Gives (StrToUInt.base10 w (t ++ 0 :: rest))
      (((t.mapM (digitBelow 10)).bind fun ns =>
        if WrapsFrom w 0 ns then none else some (number 10 ns % 2 ^ w)).map (BitVec.ofNat w)) := by
  have hloop := @decimalOf_gives w t rest [] ht
  refine hloop.congr ?_
  cases t.mapM (digitBelow 10) with
  | none => rfl
  | some ns =>
      rw [Option.bind_some, Option.bind_some, List.nil_append, List.length_nil]
      split
      next => rfl
      next => exact congrArg some (BitVec.eq_of_toNat_eq (by simp))

/-- The workers see the digits of the string, whatever its base. -/
theorem byBase_gives (limit16 limit8 : ℕ)
    (octal : Pointer → Option (HandleResult × Option (BitVec w)))
    (hoctal : ∀ ds, 0 ∉ ds → Gives (octal (ds ++ 0 :: rest))
      ((if ds.length < limit8 then numeral (digitBelow 8) 8 ds else none).map (BitVec.ofNat w)))
    {s : List UInt8} (hs : 0 ∉ s) :
    Gives (byBase limit16 octal (s ++ 0 :: rest))
      (((shape s).accepted w limit16 limit8).map (BitVec.ofNat w)) := by
  match s with
  | [] => exact base10_gives hs
  | [c] =>
      show Gives (if c = 0x30 then _ else _)
        (((if c = 0x30 then Shape.octal [] else .decimal [c]).accepted w limit16 limit8).map _)
      split
      next => exact hoctal [] nofun
      next => exact base10_gives hs
  | c :: x :: ds =>
      have hx : 0 ∉ x :: ds := fun h => hs (List.mem_cons_of_mem c h)
      have hds : 0 ∉ ds := fun h => hx (List.mem_cons_of_mem x h)
      show Gives (if c = 0x30 then _ else _)
        (((if c = 0x30 then _ else Shape.decimal (c :: x :: ds)).accepted w limit16 limit8).map _)
      split
      next =>
        show Gives (if x = 0x78 ∨ x = 0x58 then _ else _)
          (((if x = 0x78 ∨ x = 0x58 then Shape.hexadecimal ds else _).accepted w limit16
            limit8).map _)
        split
        next => exact base16_gives limit16 hds
        next =>
          split
          next => exact base2_gives hds
          next => exact hoctal (x :: ds) hx
      next => exact base10_gives hs

/-! ## What the conversions make of a string -/

/-- The wider octals are accepted as they are. -/
theorem Gives.checked {W : ℕ} {temp : BitVec W} {x : Option (HandleResult × Option (BitVec W))}
    {v : Option ℕ} (hW : w ≤ W) (hv : ∀ n, v = some n → n < 2 ^ w)
    (h : Gives x (v.map (BitVec.ofNat W))) :
    Gives (x.map (checked w temp)) (v.map (BitVec.ofNat w)) := by
  cases v with
  | none =>
      obtain ⟨val, rfl⟩ := h
      refine ⟨some ((val.getD temp).setWidth w), ?_⟩
      show some (if HandleResult.argumentOutOfRange = .okay ∧ val.getD temp >>> w ≠ 0 then
        (.argumentOutOfRange, none) else _) = _
      exact congrArg some (if_neg fun h => HandleResult.noConfusion h.1)
  | some n =>
      obtain rfl : x = some (.okay, some (BitVec.ofNat W n)) := h
      have hlt : n < 2 ^ W := Nat.lt_of_lt_of_le (hv n rfl) (Nat.pow_le_pow_right (by decide) hW)
      have hzero : BitVec.ofNat W n >>> w = 0 := by
        refine BitVec.eq_of_toNat_eq ?_
        rw [BitVec.toNat_ushiftRight, BitVec.toNat_ofNat, Nat.mod_eq_of_lt hlt,
          Nat.shiftRight_eq_div_pow, Nat.div_eq_of_lt (hv n rfl)]
        rfl
      have hcut : (BitVec.ofNat W n).setWidth w = BitVec.ofNat w n := by
        refine BitVec.eq_of_toNat_eq ?_
        rw [BitVec.toNat_setWidth, BitVec.toNat_ofNat, BitVec.toNat_ofNat, Nat.mod_eq_of_lt hlt]
      show some (if HandleResult.okay = .okay ∧ BitVec.ofNat W n >>> w ≠ 0 then _ else _) = _
      rw [if_neg fun h => h.2 hzero]
      exact congrArg (fun v => some (HandleResult.okay, some v)) hcut

theorem Gives.cut {W : ℕ} {x : Option (HandleResult × Option (BitVec W))} {v : Option ℕ}
    (hW : w ≤ W) (h : Gives x (v.map (BitVec.ofNat W))) :
    Gives (x.map (cut w)) (v.map (BitVec.ofNat w)) := by
  cases v with
  | none =>
      obtain ⟨val, rfl⟩ := h
      exact ⟨_, rfl⟩
  | some n =>
      obtain rfl : x = some (.okay, some (BitVec.ofNat W n)) := h
      have hcut : (BitVec.ofNat W n).setWidth w = BitVec.ofNat w n := by
        refine BitVec.eq_of_toNat_eq ?_
        rw [BitVec.toNat_setWidth, BitVec.toNat_ofNat, BitVec.toNat_ofNat,
          Nat.mod_mod_of_dvd n (Nat.pow_dvd_pow 2 hW)]
      exact congrArg (fun v => some (HandleResult.okay, some v)) hcut

/-- The sign test leaves the magnitudes that are below half of the range. -/
theorem Gives.sign {x : Option (HandleResult × Option (BitVec w))} {v : Option ℕ}
    (negative : Bool) (hv : ∀ n, v = some n → n < 2 ^ w) (h : Gives x (v.map (BitVec.ofNat w))) :
    Gives (x.map (withSign.sign negative))
      ((v.filter (· < 2 ^ (w - 1))).map fun n : ℕ => if negative then -(n : ℤ) else n) := by
  cases v with
  | none =>
      obtain ⟨val, rfl⟩ := h
      exact ⟨_, rfl⟩
  | some n =>
      obtain rfl : x = some (.okay, some (BitVec.ofNat w n)) := h
      have hn : (BitVec.ofNat w n).toNat = n := by
        rw [BitVec.toNat_ofNat, Nat.mod_eq_of_lt (hv n rfl)]
      have htop : BitVec.ofNat w n >>> (w - 1) = 0 ↔ n < 2 ^ (w - 1) := by
        rw [← BitVec.toNat_inj, BitVec.toNat_ushiftRight, hn, Nat.shiftRight_eq_div_pow]
        exact Nat.div_eq_zero_iff_lt (Nat.two_pow_pos _)
      have hrun : (some (HandleResult.okay, some (BitVec.ofNat w n))).map
          (withSign.sign negative) =
            some (if n < 2 ^ (w - 1) then (.okay, some (if negative then -(n : ℤ) else n))
              else (.argumentOutOfRange, none)) := by
        show some (if BitVec.ofNat w n >>> (w - 1) ≠ 0 then _ else _) = _
        rw [ite_not, if_congr htop rfl rfl, hn]
        cases negative <;> rfl
      rw [hrun]
      by_cases hlt : n < 2 ^ (w - 1)
      · rw [if_pos hlt, Option.filter_some, if_pos (decide_eq_true hlt)]
        rfl
      · rw [if_neg hlt, Option.filter_some, if_neg (by simpa using hlt)]
        exact ⟨none, rfl⟩

theorem Gives.unsigned {x : Option (HandleResult × Option (BitVec w))} {v : Option ℕ}
    (hv : ∀ n, v = some n → n < 2 ^ w) (h : Gives x (v.map (BitVec.ofNat w))) :
    Gives (x.map fun x => (x.1, x.2.map fun v => (v.toNat : ℤ)))
      ((v.filter (· < 2 ^ w)).map fun n : ℕ => (n : ℤ)) := by
  cases v with
  | none =>
      obtain ⟨val, rfl⟩ := h
      exact ⟨_, rfl⟩
  | some n =>
      obtain rfl : x = some (.okay, some (BitVec.ofNat w n)) := h
      have hn : (BitVec.ofNat w n).toNat = n := by
        rw [BitVec.toNat_ofNat, Nat.mod_eq_of_lt (hv n rfl)]
      rw [Option.filter_some, if_pos (decide_eq_true (hv n rfl))]
      exact congrArg (fun n : ℕ => some (HandleResult.okay, some (n : ℤ))) hn

/-! ## The types of 64 bits

They are parsed by the workers of their own width. -/

/-- A result of a worker as one of a type of 64 bits. -/
def ofBits : HandleResult × Option (BitVec 64) → HandleResult × Option UInt64
  | (res, val) => (res, val.map UInt64.ofBitVec)

theorem digits_eq_digitsOf {shift64 : UInt64}
    (hshift : ∀ x : BitVec 64, UInt64.ofBitVec x <<< shift64 = UInt64.ofBitVec (x <<< shift))
    (str : Pointer) (i : ℕ) (res : BitVec 64) :
    digits digit shift64 limit str i (UInt64.ofBitVec res) =
      (digitsOf 64 digit shift limit str i res).map
        (·.map fun x => (x.1, UInt64.ofBitVec x.2)) := by
  induction str generalizing i res with
  | nil => rfl
  | cons c str ih =>
      unfold digits digitsOf
      split
      next =>
        cases digit c with
        | none => rfl
        | some d =>
            have hstate : UInt64.ofBitVec res <<< shift64 ||| d =
                UInt64.ofBitVec (res <<< shift ||| d.toBitVec.setWidth 64) := by
              rw [hshift, BitVec.setWidth_eq]
              rfl
            dsimp only
            rw [hstate, ih]
      next => rfl

theorem map_digits_eq (digit : UInt8 → Option UInt64) (shift64 : UInt64) (shift limit : ℕ)
    (hshift : ∀ x : BitVec 64, UInt64.ofBitVec x <<< shift64 = UInt64.ofBitVec (x <<< shift))
    {f : Option (ℕ × UInt64) → HandleResult × Option UInt64}
    {g : Option (ℕ × BitVec 64) → HandleResult × Option (BitVec 64)}
    (hnone : f none = ofBits (g none))
    (hsome : ∀ i res, f (some (i, UInt64.ofBitVec res)) = ofBits (g (some (i, res))))
    (str : Pointer) :
    (digits digit shift64 limit str 0 0).map f =
      ((digitsOf 64 digit shift limit str 0 0).map g).map ofBits := by
  have hloop : digits digit shift64 limit str 0 0 = _ :=
    digits_eq_digitsOf hshift str 0 0
  rw [hloop]
  cases digitsOf 64 digit shift limit str 0 0 with
  | none => rfl
  | some x =>
      cases x with
      | none => exact congrArg some hnone
      | some x => exact congrArg some (hsome x.1 x.2)

theorem strToUIntBase16_eq (limit : ℕ) (str : Pointer) :
    strToUIntBase16 limit str = (StrToUInt.base16 64 limit str).map ofBits := by
  refine map_digits_eq digit16 4 4 limit (fun _ => rfl) rfl (fun i res => ?_) str
  dsimp only
  split <;> rfl

theorem strToUIntBase8_eq (limit : ℕ) (str : Pointer) :
    strToUIntBase8 limit str = (StrToUInt.base8 64 limit str).map ofBits := by
  refine map_digits_eq digit8 3 3 limit (fun _ => rfl) rfl (fun i res => ?_) str
  dsimp only
  split <;> rfl

theorem strToUIntBase2_eq (str : Pointer) :
    strToUIntBase2 str = (StrToUInt.base2 64 str).map ofBits := by
  refine map_digits_eq digit2 1 1 64 (fun _ => rfl) rfl (fun i res => ?_) str
  dsimp only
  split <;> rfl

theorem decimal_eq_decimalOf (str : Pointer) (res val : BitVec 64) :
    decimal str (UInt64.ofBitVec res) (UInt64.ofBitVec val) =
      (StrToUInt.decimalOf 64 str res val).map ofBits := by
  induction str generalizing res val with
  | nil => rfl
  | cons c str ih =>
      have hwrap : UInt64.ofBitVec res * 10 < UInt64.ofBitVec val ↔ res * 10 < val := Iff.rfl
      have hstate : UInt64.ofBitVec res * 10 + (c - 0x30).toUInt64 =
          UInt64.ofBitVec (res * 10 + (c - 0x30).toUInt64.toBitVec.setWidth 64) := by
        rw [BitVec.setWidth_eq]
        rfl
      have hnext := ih (res * 10 + (c - 0x30).toUInt64.toBitVec.setWidth 64) (res * 10)
      rw [← hstate] at hnext
      unfold decimal StrToUInt.decimalOf
      split
      next =>
        rw [if_congr hwrap rfl rfl]
        split
        next => rfl
        next =>
          split
          next => rfl
          next => exact hnext
      next => rfl

theorem fromStringUInt64_eq (str : Pointer) :
    fromStringUInt64 str = (byBase 16 (StrToUInt.base8 64 21) str).map ofBits := by
  unfold fromStringUInt64 byBase
  cases Strings.read str with
  | none => rfl
  | some c =>
      show (if c = 0x30 then _ else _) = Option.map ofBits (if c = 0x30 then _ else _)
      split
      next =>
        cases Strings.read (str.drop 1) with
        | none => rfl
        | some x =>
            show (if x = 0x78 ∨ x = 0x58 then _ else _) =
              Option.map ofBits (if x = 0x78 ∨ x = 0x58 then _ else _)
            rw [strToUIntBase16_eq, strToUIntBase2_eq, strToUIntBase8_eq]
            split
            next => rfl
            next => split <;> rfl
      next => exact decimal_eq_decimalOf str 0 0

theorem fromStringInt64_eq (str : Pointer) :
    fromStringInt64 str = withSign (byBase 16 (StrToUInt.base8 64 21)) str := by
  have hsign (negative : Bool) (x : HandleResult × Option (BitVec 64)) :
      negate negative (ofBits x) = withSign.sign negative x := by
    obtain ⟨res, val⟩ := x
    cases val with
    | none => cases res <;> rfl
    | some temp =>
        cases res with
        | okay =>
            have htop : (UInt64.ofBitVec temp) >>> 63 = 0 ↔ temp >>> (64 - 1) = 0 := by
              rw [← UInt64.toBitVec_inj]
              rfl
            show (if UInt64.ofBitVec temp >>> 63 ≠ 0 then _ else _) =
              if temp >>> (64 - 1) ≠ 0 then _ else _
            rw [if_congr htop.not rfl rfl]
            rfl
        | _ => rfl
  unfold fromStringInt64 withSign
  rw [fromStringUInt64_eq, fromStringUInt64_eq, Option.map_map, Option.map_map]
  have hsame (negative : Bool) : negate negative ∘ ofBits = withSign.sign negative :=
    funext (hsign negative)
  rw [hsame, hsame]

/-! ## What is accepted -/

namespace IntegerType

/-- From so many hexadecimal digits on, none is parsed. -/
def limit16 : IntegerType → ℕ
  | int64 => 16
  | uint64 => 16
  | int32 => 8
  | uint32 => 8
  | int16 => 4
  | uint16 => 4

/-- From so many octal digits on, none is parsed. -/
def limit8 : IntegerType → ℕ
  | int64 => 21
  | uint64 => 21
  | int32 => 11
  | uint32 => 11
  | int16 => 6
  | uint16 => 6

theorem limits (T : IntegerType) : 4 * T.limit16 ≤ T.width ∧ 3 * T.limit8 < T.width + 3 := by
  cases T <;> decide

theorem bound_le (T : IntegerType) : 2 ^ (T.width - 1) ≤ T.bound ∧ T.bound ≤ 2 ^ T.width := by
  cases T <;> decide

end IntegerType

/-- Digits of so many bits make a number of no more bits than they have together. -/
theorem numeral_lt_two_pow {digit : UInt8 → Option ℕ} {k m v : ℕ} (hk : 0 < k)
    (hdigit : ∀ c d, digit c = some d → d < 2 ^ k) (h : numeral digit (2 ^ k) t = some v)
    (hlen : k * t.length ≤ m) : v < 2 ^ m := by
  have hlt := numeral_lt (Nat.one_lt_two_pow (Nat.ne_of_gt hk)) hdigit h
  rw [← Nat.pow_mul] at hlt
  exact Nat.lt_of_lt_of_le hlt (Nat.pow_le_pow_right (by decide) hlen)

theorem octal_lt {limit8 v : ℕ} (hlimit : 3 * limit8 < w + 3)
    (h : (if t.length < limit8 then numeral (digitBelow 8) 8 t else none) = some v) :
    v < 2 ^ (w - 1) := by
  obtain ⟨hlen, hds⟩ := Option.ite_none_right_eq_some.mp h
  exact numeral_lt_two_pow (k := 3) (by decide) digitBelow_lt hds (by omega)

/-- Whatever is accepted fits the type. -/
theorem Shape.accepted_lt {sh : Shape} {limit16 limit8 v : ℕ} (h16 : 4 * limit16 ≤ w)
    (h8 : 3 * limit8 < w + 3) (h : sh.accepted w limit16 limit8 = some v) : v < 2 ^ w := by
  have hhalf : 2 ^ (w - 1) ≤ 2 ^ w := Nat.pow_le_pow_right (by decide) (Nat.sub_le w 1)
  cases sh with
  | hexadecimal ds =>
      obtain ⟨hlen, hds⟩ := Option.ite_none_right_eq_some.mp h
      exact numeral_lt_two_pow (k := 4) (by decide) digit16_lt hds (by omega)
  | binary ds =>
      obtain ⟨hlen, hds⟩ := Option.ite_none_right_eq_some.mp h
      exact numeral_lt_two_pow (k := 1) (by decide) digitBelow_lt hds (by omega)
  | octal ds => exact Nat.lt_of_lt_of_le (octal_lt h8 h) hhalf
  | decimal ds =>
      obtain ⟨ns, -, hv⟩ := Option.bind_eq_some_iff.mp h
      split at hv
      next => exact nomatch hv
      next =>
        obtain rfl := Option.some.inj hv
        exact Nat.mod_lt _ (Nat.two_pow_pos w)

/-- Parsing for a signed type is parsing of the string without its sign. -/
theorem withSign_gives {parse : Pointer → Option (HandleResult × Option (BitVec w))}
    {f : List UInt8 → Option ℕ} {s : List UInt8} {T : IntegerType} (hT : T.signed = true)
    (hs : 0 ∉ s) (hf : ∀ s v, f s = some v → v < 2 ^ w)
    (hparse : ∀ s, 0 ∉ s → Gives (parse (s ++ 0 :: rest)) ((f s).map (BitVec.ofNat w))) :
    Gives (withSign parse (s ++ 0 :: rest))
      (((f (T.body s)).filter (· < 2 ^ (w - 1))).map (T.withSignOf s)) := by
  have hneg : T.negative s = (s.head? == some 0x2D) := by
    unfold IntegerType.negative
    rw [hT, Bool.true_and]
  unfold IntegerType.body IntegerType.withSignOf
  rw [hneg]
  cases s with
  | nil => exact Gives.sign false (hf []) (hparse [] hs)
  | cons c s =>
      by_cases hc : c = 0x2D
      · subst hc
        exact Gives.sign true (hf s) (hparse s fun h => hs (List.mem_cons_of_mem _ h))
      · have hhead : ((c :: s).head? == some 0x2D) = false := by simpa using hc
        rw [hhead]
        refine Eq.subst (motive := fun x => Gives x _) ?_
          (Gives.sign false (hf (c :: s)) (hparse (c :: s) hs))
        exact (if_neg hc).symm

/-- What a conversion returns for any string. -/
theorem IntegerType.fromString_gives (T : IntegerType) (temp : BitVec 64) {s : List UInt8}
    (hs : 0 ∉ s) :
    Gives (T.fromString temp (s ++ 0 :: rest))
      ((((shape (T.body s)).accepted T.width T.limit16 T.limit8).filter (· < T.bound)).map
        (T.withSignOf s)) := by
  have h64 : ∀ s, 0 ∉ s → Gives (byBase 16 (StrToUInt.base8 64 21) (s ++ 0 :: rest))
      (((shape s).accepted 64 16 21).map (BitVec.ofNat 64)) :=
    fun s hs => byBase_gives 16 21 _ (fun ds hds => base8_gives 21 hds) hs
  have h32 (octal : _ → _)
      (hoctal : ∀ x : Option (HandleResult × Option (BitVec 64)), ∀ v : Option ℕ,
        (∀ n, v = some n → n < 2 ^ 32) → Gives x (v.map (BitVec.ofNat 64)) →
          Gives (x.map octal) (v.map (BitVec.ofNat 32))) :
      ∀ s, 0 ∉ s → Gives (byBase 8 (fun str => (StrToUInt.base8 64 11 str).map octal)
        (s ++ 0 :: rest)) (((shape s).accepted 32 8 11).map (BitVec.ofNat 32)) :=
    fun s hs => byBase_gives 8 11 _ (fun ds hds => hoctal _ _
      (fun n hn => Nat.lt_of_lt_of_le (octal_lt (w := 32) (by decide) hn) (by decide))
      (base8_gives 11 hds)) hs
  have h16 (octal : _ → _)
      (hoctal : ∀ x : Option (HandleResult × Option (BitVec 32)), ∀ v : Option ℕ,
        (∀ n, v = some n → n < 2 ^ 16) → Gives x (v.map (BitVec.ofNat 32)) →
          Gives (x.map octal) (v.map (BitVec.ofNat 16))) :
      ∀ s, 0 ∉ s → Gives (byBase 4 (fun str => (StrToUInt.base8 32 6 str).map octal)
        (s ++ 0 :: rest)) (((shape s).accepted 16 4 6).map (BitVec.ofNat 16)) :=
    fun s hs => byBase_gives 4 6 _ (fun ds hds => hoctal _ _
      (fun n hn => Nat.lt_of_lt_of_le (octal_lt (w := 16) (by decide) hn) (by decide))
      (base8_gives 6 hds)) hs
  cases T with
  | int64 =>
      show Gives (fromStringInt64 _) _
      rw [fromStringInt64_eq]
      exact withSign_gives (f := fun s => (shape s).accepted 64 16 21) rfl hs
        (fun s v hv => Shape.accepted_lt (by decide) (by decide) hv) h64
  | uint64 =>
      show Gives ((fromStringUInt64 _).map _) _
      have hcast : ((fun x => (x.1, x.2.map fun v => (v.toNat : ℤ))) ∘ ofBits) =
          fun x : HandleResult × Option (BitVec 64) => (x.1, x.2.map fun v => (v.toNat : ℤ)) := by
        funext x
        obtain ⟨res, val⟩ := x
        cases val <;> rfl
      rw [fromStringUInt64_eq, Option.map_map, hcast]
      exact Gives.unsigned (fun v hv => Shape.accepted_lt (by decide) (by decide) hv) (h64 s hs)
  | int32 =>
      exact withSign_gives (f := fun s => (shape s).accepted 32 8 11) rfl hs
        (fun s v hv => Shape.accepted_lt (by decide) (by decide) hv)
        (h32 _ fun _ _ _ h => h.cut (by decide))
  | uint32 =>
      exact Gives.unsigned (fun v hv => Shape.accepted_lt (by decide) (by decide) hv)
        (h32 _ (fun _ _ hv h => h.checked (by decide) hv) s hs)
  | int16 =>
      exact withSign_gives (f := fun s => (shape s).accepted 16 4 6) rfl hs
        (fun s v hv => Shape.accepted_lt (by decide) (by decide) hv)
        (h16 _ fun _ _ _ h => h.cut (by decide))
  | uint16 =>
      exact Gives.unsigned (fun v hv => Shape.accepted_lt (by decide) (by decide) hv)
        (h16 _ (fun _ _ hv h => h.checked (by decide) hv) s hs)

/-! ## When it is what the string stands for -/

theorem gives_iff {α : Type} {x : Option (HandleResult × Option α)} {v v' : Option α}
    (h : Gives x v) : Gives x v' ↔ v = v' := by
  constructor
  · intro h'
    cases v with
    | none =>
        obtain ⟨val, rfl⟩ := h
        cases v' with
        | none => rfl
        | some n' => exact nomatch h'
    | some n =>
        obtain rfl : x = some (.okay, some n) := h
        cases v' with
        | none => exact nomatch h'
        | some n' =>
            cases h'
            rfl
  · rintro rfl
    exact h

theorem filter_lt {b n : ℕ} (h : n < b) : (some n).filter (· < b) = some n := by
  rw [Option.filter_some, if_pos (decide_eq_true h)]

theorem none_eq_filter {b n : ℕ} : none = (some n).filter (· < b) ↔ b ≤ n := by
  rw [eq_comm, Option.filter_eq_none_iff]
  simp

theorem filter_eq_none {b n : ℕ} : (some n).filter (· < b) = none ↔ b ≤ n :=
  eq_comm.trans none_eq_filter

/-- A decimal that fits in the width is never taken for one that does not. -/
theorem not_wrapsFrom_of_lt {ns : List ℕ} (h : number 10 ns < 2 ^ w) (i : ℕ) :
    ¬WrapsFrom w i ns := by
  rintro ⟨k, hlt, -, hwrap⟩
  have htake : ns.take (k + 1) = ns.take k ++ [ns[k]] := List.take_succ_eq_append_getElem hlt
  have hnext := number_take_le (b := 10) (by decide) (k + 1) ns
  rw [htake, number_concat] at hnext
  have hback : number 10 (ns.take (k - 1)) ≤ number 10 (ns.take k) := by
    have hle := number_take_le (b := 10) (by decide) (k - 1) (ns.take k)
    rwa [List.take_take, Nat.min_eq_left (Nat.sub_le k 1)] at hle
  unfold Wraps at hwrap
  rw [Nat.mod_eq_of_lt (by omega), Nat.mod_eq_of_lt (by omega)] at hwrap
  omega

namespace IntegerType

/-- The strings that a conversion handles, by their digits.  Of hexadecimals it takes those without
letters, of all bases but ten only those with fewer digits than a limit; decimals must not be empty,
and when they do not fit in the width, a wrap must be seen on the way or in the sign. -/
def Handles (T : IntegerType) : Shape → Prop
  | .hexadecimal ds =>
      ds ≠ [] → ∀ v, numeral hexDigit 16 ds = some v →
        if ds.length < T.limit16 then ∀ c ∈ ds, c < 0x3A else T.bound ≤ v
  | .binary ds =>
      ds ≠ [] → ∀ v, numeral (digitBelow 2) 2 ds = some v → ds.length < T.width ∨ T.bound ≤ v
  | .octal ds =>
      ∀ v, numeral (digitBelow 8) 8 ds = some v → ds.length < T.limit8 ∨ T.bound ≤ v
  | .decimal ds =>
      ds ≠ [] ∧ ∀ ns, ds.mapM (digitBelow 10) = some ns →
        number 10 ns < 2 ^ T.width ∨ WrapsFrom T.width 0 ns ∨
          T.bound ≤ number 10 ns % 2 ^ T.width

/-- Where digits beyond a limit are refused, they must not fit. -/
theorem limited_iff {p : Prop} [Decidable p] {v : Option ℕ} {b : ℕ}
    (hfits : p → ∀ n, v = some n → n < b) :
    (if p then v else none).filter (· < b) = v.filter (· < b) ↔
      ∀ n, v = some n → p ∨ b ≤ n := by
  by_cases hp : p
  · rw [if_pos hp]
    exact ⟨fun _ _ _ => .inl hp, fun _ => rfl⟩
  · rw [if_neg hp]
    cases v with
    | none => exact ⟨fun _ _ h => (nomatch h), fun _ => rfl⟩
    | some n =>
        refine none_eq_filter.trans ⟨fun h m hm => ?_, fun h => (h n rfl).resolve_left hp⟩
        cases hm
        exact .inr h

/-- Digits of so many bits, and fewer of them than fill the width, fit the type. -/
theorem numeral_lt_bound (T : IntegerType) {digit : UInt8 → Option ℕ} {k v : ℕ} (hk : 0 < k)
    (hdigit : ∀ c d, digit c = some d → d < 2 ^ k) (hlen : k * t.length < T.width)
    (h : numeral digit (2 ^ k) t = some v) : v < T.bound :=
  Nat.lt_of_lt_of_le (numeral_lt_two_pow hk hdigit h (Nat.le_sub_one_of_lt hlen)) T.bound_le.1

/-- A row of hexadecimal digits is read too low unless it has no letter. -/
theorem mapM_digit16 (ds : List UInt8) :
    (ds.mapM (digitNumber digit16) = none ↔ ds.mapM hexDigit = none) ∧
      ∀ ms ns, ds.mapM (digitNumber digit16) = some ms → ds.mapM hexDigit = some ns →
        number 16 ms ≤ number 16 ns ∧ (number 16 ms = number 16 ns ↔ ∀ c ∈ ds, c < 0x3A) := by
  refine mapM_too_low (by decide) (fun c => ?_) fun c d d' hd hd' => ?_
  · rw [digitNumber_digit16, Option.map_eq_none_iff]
  · rw [digitNumber_digit16, hd', Option.map_some] at hd
    have hletter := (hexDigit_letter c d' hd').2
    obtain rfl := Option.some.inj hd
    split
    next hc => exact ⟨Nat.le_refl _, fun _ => hc, fun _ => rfl⟩
    next hc =>
      have hten := hletter hc
      exact ⟨by omega, by omega, fun h => absurd h hc⟩

/-- The letters of hexadecimals count too little. -/
theorem hexadecimal_iff (T : IntegerType) (ds : List UInt8) :
    ((Shape.hexadecimal ds).accepted T.width T.limit16 T.limit8).filter (· < T.bound) =
        (Shape.hexadecimal ds).magnitude.filter (· < T.bound) ↔
      T.Handles (.hexadecimal ds) := by
  show (if ds.length < T.limit16 ∧ ds ≠ [] then _ else none).filter _ =
    (if ds = [] then none else numeral hexDigit 16 ds).filter _ ↔ _
  by_cases hds : ds = []
  · rw [if_neg fun h => h.2 hds, if_pos hds]
    exact ⟨fun _ h => absurd hds h, fun _ => rfl⟩
  · rw [if_neg hds]
    have htoolow := mapM_digit16 ds
    cases hns : ds.mapM hexDigit with
    | none =>
        have htrue : numeral hexDigit 16 ds = none := by
          unfold numeral
          rw [hns]
          rfl
        have hcode : numeral (digitNumber digit16) 16 ds = none := by
          unfold numeral
          rw [htoolow.1.mpr hns]
          rfl
        rw [htrue, hcode, ite_self]
        refine ⟨fun _ _ v hv => ?_, fun _ => rfl⟩
        exact nomatch htrue.symm.trans hv
    | some ns =>
        obtain ⟨ms, hms⟩ : ∃ ms, ds.mapM (digitNumber digit16) = some ms :=
          Option.ne_none_iff_exists'.mp fun h => nomatch hns.symm.trans (htoolow.1.mp h)
        obtain ⟨-, hiff⟩ := htoolow.2 ms ns hms hns
        have htrue : numeral hexDigit 16 ds = some (number 16 ns) :=
          numeral_eq_some.mpr ⟨ns, hns, rfl⟩
        have hcode : numeral (digitNumber digit16) 16 ds = some (number 16 ms) :=
          numeral_eq_some.mpr ⟨ms, hms, rfl⟩
        have hhandles : T.Handles (.hexadecimal ds) ↔
            if ds.length < T.limit16 then ∀ c ∈ ds, c < 0x3A else T.bound ≤ number 16 ns := by
          refine ⟨fun h => h hds _ htrue, fun h _ v hv => ?_⟩
          cases htrue.symm.trans hv
          exact h
        rw [hhandles]
        by_cases hlen : ds.length < T.limit16
        · have hfits : 4 * ds.length < T.width := by
            have hlimit := T.limits.1
            omega
          rw [if_pos ⟨hlen, hds⟩, if_pos hlen, htrue, hcode,
            filter_lt (T.numeral_lt_bound (k := 4) (by decide) digit16_lt hfits hcode),
            filter_lt (T.numeral_lt_bound (k := 4) (by decide)
              (fun c d h => (hexDigit_letter c d h).1) hfits htrue), ← hiff]
          exact Option.some_inj
        · rw [if_neg fun h => hlen h.1, if_neg hlen, htrue]
          exact none_eq_filter

theorem binary_iff (T : IntegerType) (ds : List UInt8) :
    ((Shape.binary ds).accepted T.width T.limit16 T.limit8).filter (· < T.bound) =
        (Shape.binary ds).magnitude.filter (· < T.bound) ↔
      T.Handles (.binary ds) := by
  show (if ds.length < T.width ∧ ds ≠ [] then _ else none).filter _ =
    (if ds = [] then none else numeral (digitBelow 2) 2 ds).filter _ ↔ _
  by_cases hds : ds = []
  · rw [if_neg fun h => h.2 hds, if_pos hds]
    exact ⟨fun _ h => absurd hds h, fun _ => rfl⟩
  · rw [if_neg hds]
    refine (limited_iff (v := numeral (digitBelow 2) 2 ds) fun h n hn =>
      T.numeral_lt_bound (k := 1) (by decide) digitBelow_lt (by omega) hn).trans ?_
    exact ⟨fun h _ v hv => (h v hv).imp_left And.left,
      fun h v hv => (h hds v hv).imp_left fun hlen => ⟨hlen, hds⟩⟩

theorem octal_iff (T : IntegerType) (ds : List UInt8) :
    ((Shape.octal ds).accepted T.width T.limit16 T.limit8).filter (· < T.bound) =
        (Shape.octal ds).magnitude.filter (· < T.bound) ↔
      T.Handles (.octal ds) := by
  refine limited_iff fun hlen n hn => ?_
  have hlimit := T.limits.2
  exact T.numeral_lt_bound (k := 3) (by decide) digitBelow_lt (by omega) hn

/-- A decimal that does not fit is refused when it is seen to wrap, or when what is left of it does
not fit either. -/
theorem decimal_iff (T : IntegerType) (ds : List UInt8) :
    ((Shape.decimal ds).accepted T.width T.limit16 T.limit8).filter (· < T.bound) =
        (Shape.decimal ds).magnitude.filter (· < T.bound) ↔
      T.Handles (.decimal ds) := by
  have hbound : 0 < T.bound := Nat.lt_of_lt_of_le (Nat.two_pow_pos _) T.bound_le.1
  by_cases hds : ds = []
  · subst hds
    have hempty : (Shape.decimal []).accepted T.width T.limit16 T.limit8 = some 0 := by
      have hnot : ¬WrapsFrom T.width 0 [] := @not_wrapsFrom_length _ []
      show (if WrapsFrom T.width 0 [] then none else some (0 % 2 ^ T.width)) = some 0
      rw [if_neg hnot, Nat.zero_mod]
    rw [hempty, filter_lt hbound]
    exact ⟨fun h => (nomatch h), fun h => absurd rfl h.1⟩
  · show ((ds.mapM (digitBelow 10)).bind _).filter _ =
      (if ds = [] then none else numeral (digitBelow 10) 10 ds).filter _ ↔ _
    rw [if_neg hds]
    unfold numeral
    cases hns : ds.mapM (digitBelow 10) with
    | none =>
        refine ⟨fun _ => ⟨hds, fun ns h => ?_⟩, fun _ => rfl⟩
        exact nomatch hns.symm.trans h
    | some ns =>
        have hhandles : T.Handles (.decimal ds) ↔ number 10 ns < 2 ^ T.width ∨
            WrapsFrom T.width 0 ns ∨ T.bound ≤ number 10 ns % 2 ^ T.width := by
          refine ⟨fun h => h.2 ns hns, fun h => ⟨hds, fun ns' h' => ?_⟩⟩
          cases hns.symm.trans h'
          exact h
        rw [hhandles, Option.bind_some, Option.map_some]
        rcases Nat.lt_or_ge (number 10 ns) (2 ^ T.width) with hlt | hge
        · rw [if_neg (not_wrapsFrom_of_lt hlt 0), Nat.mod_eq_of_lt hlt]
          exact ⟨fun _ => .inl hlt, fun _ => rfl⟩
        · rw [filter_eq_none.mpr (Nat.le_trans T.bound_le.2 hge),
            or_iff_right (Nat.not_lt.mpr hge)]
          split
          next hwrap => exact ⟨fun _ => .inl hwrap, fun _ => rfl⟩
          next hwrap => rw [or_iff_right hwrap, filter_eq_none]

theorem withSignOf_injective (T : IntegerType) (s : List UInt8) :
    Function.Injective (T.withSignOf s) := by
  intro m n h
  unfold withSignOf at h
  split at h <;> omega

/-- A string is parsed exactly when the conversion handles its digits. -/
theorem fromString_exact_iff (T : IntegerType) (temp : BitVec 64) (s rest : List UInt8)
    (hs : 0 ∉ s) : T.Exact temp s rest ↔ T.Handles (shape (T.body s)) := by
  refine (gives_iff (T.fromString_gives temp hs)).trans ?_
  unfold value
  rw [(Option.map_injective (T.withSignOf_injective s)).eq_iff]
  cases shape (T.body s) with
  | hexadecimal ds => exact T.hexadecimal_iff ds
  | binary ds => exact T.binary_iff ds
  | octal ds => exact T.octal_iff ds
  | decimal ds => exact T.decimal_iff ds

/-- `65535` is the greatest number of 16 bits. -/
theorem fromString_exact_iff_max :
    IntegerType.uint16.Exact 0 [0x36, 0x35, 0x35, 0x33, 0x35] [] :=
  (fromString_exact_iff .uint16 0 _ [] (by decide)).mpr
    ⟨by decide, fun ns h => .inl (by
      cases h
      decide)⟩

/-- `0xA` is read as one, `65536` as zero, and `0xFFFF` is refused. -/
theorem fromString_not_exact :
    ¬uint64.Exact 0 [0x30, 0x78, 0x41] [] ∧ ¬uint16.Exact 0 [0x36, 0x35, 0x35, 0x33, 0x36] [] ∧
      ¬uint16.Exact 0 [0x30, 0x78, 0x46, 0x46, 0x46, 0x46] [] := by
  refine ⟨fun h => ?_, fun h => ?_, fun h => ?_⟩
  · have hrun : uint64.fromString 0 [0x30, 0x78, 0x41, 0] = some (.okay, some 10) := h
    exact absurd hrun (by decide +kernel)
  · obtain ⟨val, hrun⟩ : ∃ val, uint16.fromString 0 [0x36, 0x35, 0x35, 0x33, 0x36, 0] =
      some (.argumentOutOfRange, val) := h
    have hres : (uint16.fromString 0 [0x36, 0x35, 0x35, 0x33, 0x36, 0]).map Prod.fst =
      some .okay := by decide +kernel
    rw [hrun] at hres
    exact nomatch hres
  · have hrun : uint16.fromString 0 [0x30, 0x78, 0x46, 0x46, 0x46, 0x46, 0] =
      some (.okay, some 65535) := h
    exact absurd hrun (by decide +kernel)

end IntegerType

end Beelzebub.Conversions
