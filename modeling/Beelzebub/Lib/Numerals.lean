import Mathlib.Data.List.Induction
import Mathlib.Data.Nat.Digits.Lemmas
import Mathlib.Tactic.Common
import Mathlib.Tactic.Ring

/-!
# Numerals

The number that a row of digits stands for, the highest digit first, and the row of digits that a
string is when each character of it is one.
-/

namespace Numerals

variable {b d w : ℕ} {ds ms ns : List ℕ}

/-! ## Rows of digits -/

/-- The number that digits stand for in a base. -/
def number (b : ℕ) (ds : List ℕ) : ℕ := ds.foldl (fun v d => b * v + d) 0

@[simp] theorem number_nil (b : ℕ) : number b [] = 0 := rfl

theorem number_concat (b : ℕ) (ds : List ℕ) (d : ℕ) :
    number b (ds ++ [d]) = b * number b ds + d := by
  unfold number
  rw [List.foldl_append]
  rfl

theorem number_eq_ofDigits (b : ℕ) (ds : List ℕ) : number b ds = Nat.ofDigits b ds.reverse := by
  induction ds using List.reverseRecOn with
  | nil => rfl
  | append_singleton ds d ih =>
      rw [number_concat, ih, List.reverse_concat, Nat.ofDigits_cons, Nat.add_comm]

theorem number_cons (b d : ℕ) (ds : List ℕ) :
    number b (d :: ds) = d * b ^ ds.length + number b ds := by
  rw [number_eq_ofDigits, number_eq_ofDigits, Nat.ofDigits_reverse_cons]
  ring

theorem number_lt (hb : 1 < b) (h : ∀ d ∈ ds, d < b) : number b ds < b ^ ds.length := by
  rw [number_eq_ofDigits, ← List.length_reverse]
  exact Nat.ofDigits_lt_base_pow_length hb fun d hd => h d (List.mem_reverse.mp hd)

/-- What was read so far is no more than the whole. -/
theorem number_take_le (hb : 0 < b) (k : ℕ) (ds : List ℕ) : number b (ds.take k) ≤ number b ds := by
  induction ds using List.reverseRecOn with
  | nil => rw [List.take_nil]
  | append_singleton ds d ih =>
      rcases Nat.lt_or_ge ds.length k with hlt | hge
      · rw [List.take_of_length_le (by rwa [List.length_append])]
      · rw [List.take_append_of_le_length hge, number_concat]
        have hmul := Nat.le_mul_of_pos_left (number b ds) hb
        omega

/-! ## Canonical numerals -/

/-- The digits of a number.  The first one is not zero, unless the number is. -/
def canonical (b x : ℕ) : List ℕ := if x = 0 then [0] else (Nat.digits b x).reverse

/-- The last digit, behind those of what is left, if anything is. -/
theorem canonical_eq (hb : 1 < b) (x : ℕ) :
    canonical b x = (if x / b = 0 then [] else canonical b (x / b)) ++ [x % b] := by
  unfold canonical
  by_cases hx : x = 0
  · rw [if_pos hx, hx, Nat.zero_div, if_pos rfl, Nat.zero_mod, List.nil_append]
  · rw [if_neg hx, Nat.digits_eq_cons_digits_div hb hx, List.reverse_cons]
    by_cases hdiv : x / b = 0
    · rw [if_pos hdiv, hdiv, Nat.digits_zero, List.reverse_nil]
    · rw [if_neg hdiv, if_neg hdiv]

theorem canonical_of_lt (hb : 1 < b) {x : ℕ} (hx : x / b = 0) : canonical b x = [x % b] := by
  rw [canonical_eq hb, if_pos hx, List.nil_append]

theorem canonical_of_le (hb : 1 < b) {x : ℕ} (hx : x / b ≠ 0) :
    canonical b x = canonical b (x / b) ++ [x % b] := by
  rw [canonical_eq hb, if_neg hx]

theorem length_canonical_pos (hb : 1 < b) (x : ℕ) : 0 < (canonical b x).length := by
  rw [canonical_eq hb, List.length_append, List.length_singleton]
  exact Nat.succ_pos _

@[simp] theorem number_canonical (b x : ℕ) : number b (canonical b x) = x := by
  unfold canonical
  by_cases hx : x = 0
  · rw [if_pos hx, hx, number_cons, number_nil, Nat.zero_mul]
  · rw [if_neg hx, number_eq_ofDigits, List.reverse_reverse, Nat.ofDigits_digits]

theorem canonical_lt (hb : 1 < b) {x : ℕ} : ∀ d ∈ canonical b x, d < b := by
  intro d hd
  unfold canonical at hd
  split at hd
  · rw [List.mem_singleton.mp hd]
    exact Nat.lt_trans Nat.zero_lt_one hb
  · exact Nat.digits_lt_base hb (List.mem_reverse.mp hd)

theorem length_canonical_le (hb : 1 < b) {x k : ℕ} (hk : 0 < k) (hx : x < b ^ k) :
    (canonical b x).length ≤ k := by
  unfold canonical
  split
  · exact hk
  · rw [List.length_reverse]
    exact (Nat.digits_length_le_iff hb x).mpr hx

/-- The digits behind the last `k`. -/
theorem length_canonical_div (hb : 1 < b) {x k : ℕ} (hx : b ^ k ≤ x) :
    (canonical b x).length = k + (canonical b (x / b ^ k)).length := by
  induction k generalizing x with
  | zero => rw [Nat.pow_zero, Nat.div_one, Nat.zero_add]
  | succ k ih =>
      have hpos : 0 < b := Nat.lt_trans Nat.zero_lt_one hb
      have hle : b ^ k ≤ x / b := (Nat.le_div_iff_mul_le hpos).mpr (by rwa [Nat.pow_succ] at hx)
      have hne : x / b ≠ 0 := Nat.ne_of_gt (Nat.lt_of_lt_of_le (Nat.pow_pos hpos) hle)
      rw [canonical_of_le hb hne, List.length_append, List.length_singleton, ih hle,
        Nat.div_div_eq_div_mul, Nat.pow_succ, Nat.mul_comm b, Nat.add_right_comm]

/-! ## Strings -/

variable {C : Type*} {digit digit' : C → Option ℕ} {c : C} {s t : List C}

/-- The number that a string of digits stands for. -/
def numeral (digit : C → Option ℕ) (b : ℕ) (s : List C) : Option ℕ :=
  (s.mapM digit).map (number b)

theorem mapM_cons_eq_some {ns : List ℕ} :
    (c :: s).mapM digit = some ns ↔
      ∃ d ds, digit c = some d ∧ s.mapM digit = some ds ∧ ns = d :: ds := by
  rw [List.mapM_cons]
  cases digit c with
  | none => simp
  | some d =>
      cases s.mapM digit with
      | none => simp
      | some ds => simp [eq_comm]

theorem mapM_cons_eq_none :
    (c :: s).mapM digit = none ↔ digit c = none ∨ s.mapM digit = none := by
  rw [List.mapM_cons]
  cases digit c with
  | none => simp
  | some d =>
      cases s.mapM digit with
      | none => simp
      | some ds => simp

theorem length_of_mapM (h : s.mapM digit = some ns) : ns.length = s.length := by
  induction s generalizing ns with
  | nil =>
      cases h
      rfl
  | cons c s ih =>
      obtain ⟨d, ds, -, hds, rfl⟩ := mapM_cons_eq_some.mp h
      exact congrArg Nat.succ (ih hds)

theorem lt_of_mapM (hdigit : ∀ c d, digit c = some d → d < b) (h : s.mapM digit = some ns) :
    ∀ d ∈ ns, d < b := by
  induction s generalizing ns with
  | nil =>
      cases h
      exact fun d hd => nomatch hd
  | cons c s ih =>
      obtain ⟨d, ds, hd, hds, rfl⟩ := mapM_cons_eq_some.mp h
      exact List.forall_mem_cons.mpr ⟨hdigit c d hd, ih hds⟩

theorem numeral_eq_some {v : ℕ} :
    numeral digit b s = some v ↔ ∃ ns, s.mapM digit = some ns ∧ number b ns = v :=
  Option.map_eq_some_iff

/-- A string that is made of digits stands for their number. -/
theorem numeral_map {char : ℕ → C} (h : ∀ d ∈ ds, digit (char d) = some d) :
    numeral digit b (ds.map char) = some (number b ds) := by
  have hdigits : (ds.map char).mapM digit = some ds := by
    induction ds with
    | nil => rfl
    | cons d ds ih =>
        rw [List.forall_mem_cons] at h
        rw [List.map_cons, mapM_cons_eq_some]
        exact ⟨d, ds, h.1, ih h.2, rfl⟩
  unfold numeral
  rw [hdigits, Option.map_some]

theorem numeral_lt (hb : 1 < b) (hdigit : ∀ c d, digit c = some d → d < b) {v : ℕ}
    (h : numeral digit b s = some v) : v < b ^ s.length := by
  obtain ⟨ns, hns, rfl⟩ := numeral_eq_some.mp h
  rw [← length_of_mapM hns]
  exact number_lt hb (lt_of_mapM hdigit hns)

/-- Digits that are read too low make too low a number, unless they are those where both readings
agree. -/
theorem mapM_too_low (hb : 0 < b) {exact : C → Prop}
    (hnone : ∀ c, digit c = none ↔ digit' c = none)
    (hlow : ∀ c d d', digit c = some d → digit' c = some d' → d ≤ d' ∧ (d = d' ↔ exact c)) :
    (s.mapM digit = none ↔ s.mapM digit' = none) ∧
      ∀ ms ns, s.mapM digit = some ms → s.mapM digit' = some ns →
        number b ms ≤ number b ns ∧ (number b ms = number b ns ↔ ∀ c ∈ s, exact c) := by
  induction s with
  | nil =>
      refine ⟨Iff.rfl, fun ms ns hms hns => ?_⟩
      cases hms
      cases hns
      exact ⟨Nat.le_refl _, fun _ c hc => (nomatch hc), fun _ => rfl⟩
  | cons c s ih =>
      refine ⟨?_, fun ms ns hms hns => ?_⟩
      · rw [mapM_cons_eq_none, mapM_cons_eq_none, hnone, ih.1]
      · obtain ⟨d, ms, hd, hms', rfl⟩ := mapM_cons_eq_some.mp hms
        obtain ⟨d', ns, hd', hns', rfl⟩ := mapM_cons_eq_some.mp hns
        obtain ⟨hle, heq⟩ := hlow c d d' hd hd'
        obtain ⟨hrest, hiff⟩ := ih.2 ms ns hms' hns'
        have hpow : 0 < b ^ s.length := Nat.pow_pos hb
        have hhead : d * b ^ s.length ≤ d' * b ^ s.length := Nat.mul_le_mul_right _ hle
        rw [number_cons, number_cons, length_of_mapM hms', length_of_mapM hns',
          List.forall_mem_cons, ← heq, ← hiff]
        refine ⟨Nat.add_le_add hhead hrest, fun hsame => ?_, ?_⟩
        · have hd : d * b ^ s.length = d' * b ^ s.length := by omega
          exact ⟨Nat.eq_of_mul_eq_mul_right hpow hd, by omega⟩
        · rintro ⟨rfl, hsame⟩
          rw [hsame]

end Numerals
