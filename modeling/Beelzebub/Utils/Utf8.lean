import Mathlib.Data.List.Basic
import Mathlib.Tactic.NormNum

/-!
# Decoding UTF-8

`GetUtf8Codepoint` reads the length of the encoding off its first byte and takes six bits from
each continuation byte.  Memory is a function from the place after the first byte.
-/

namespace Beelzebub.Utf8

/-! ## The code -/

/-- `DecodedCodepoint`, where a null `Next` is `none`.  The number of bytes that were read is only
for the record. -/
structure DecodedCodepoint where
  next : Option ℕ
  char : UInt32
  read : ℕ
  deriving DecidableEq

def failure (read : ℕ) : DecodedCodepoint := ⟨none, 0x7FFFFFFF, read⟩

/-- The byte continues an encoding. -/
def isContinuation (c : UInt8) : Bool := c &&& 0xC0 = 0x80

/-- The loop over the continuation bytes.  Too many rounds have no result. -/
def continuations (mem : ℕ → UInt8) (next : ℕ) : ℕ → ℕ → UInt32 → Option DecodedCodepoint
  | 0, _, _ => none
  | rounds + 1, chr, char =>
      let c := mem (chr + 1)
      if !isContinuation c then some (failure (chr + 2))
      else
        let char := (char <<< 6) ||| (c &&& 0x3F).toUInt32
        if chr + 1 < next then continuations mem next rounds (chr + 1) char
        else some ⟨some next, char, chr + 2⟩

def getUtf8Codepoint (mem : ℕ → UInt8) : Option DecodedCodepoint :=
  let c1 := mem 0
  if c1 ≥ 0xE0 then
    if c1 < 0xF8 then
      if c1 < 0xF0 then continuations mem 3 3 0 (c1 &&& 0x0F).toUInt32
      else continuations mem 4 4 0 (c1 &&& 0x07).toUInt32
    else
      if c1 ≥ 0xFC then continuations mem 6 6 0 (c1 &&& 0x01).toUInt32
      else continuations mem 5 5 0 (c1 &&& 0x03).toUInt32
  else
    if c1 ≥ 0xC0 then continuations mem 2 2 0 (c1 &&& 0x1F).toUInt32
    else if c1 < 0x80 then some ⟨some 1, (c1 &&& 0x7F).toUInt32, 1⟩
    else some (failure 1)

/-! ## What is asked -/

/-- The continuation bytes that a first byte asks for. -/
def required (c1 : UInt8) : ℕ :=
  if c1 < 0xC0 then 0
  else if c1 < 0xE0 then 1
  else if c1 < 0xF0 then 2
  else if c1 < 0xF8 then 3
  else if c1 < 0xFC then 4
  else 5

/-- The lowest so many groups of six bits of a code point. -/
def groups (cp : ℕ) : ℕ → List UInt8
  | 0 => []
  | n + 1 => UInt8.ofNat (0x80 + cp / 64 ^ n % 64) :: groups cp n

/-- The shortest encoding of a code point. -/
def encode (cp : ℕ) : List UInt8 :=
  if cp < 0x80 then [UInt8.ofNat cp]
  else if cp < 0x800 then UInt8.ofNat (0xC0 + cp / 64) :: groups cp 1
  else if cp < 0x10000 then UInt8.ofNat (0xE0 + cp / 64 ^ 2) :: groups cp 2
  else if cp < 0x200000 then UInt8.ofNat (0xF0 + cp / 64 ^ 3) :: groups cp 3
  else if cp < 0x4000000 then UInt8.ofNat (0xF8 + cp / 64 ^ 4) :: groups cp 4
  else UInt8.ofNat (0xFC + cp / 64 ^ 5) :: groups cp 5

/-- Memory begins with these bytes. -/
def Begins (mem : ℕ → UInt8) (bytes : List UInt8) : Prop :=
  ∀ k (h : k < bytes.length), mem k = bytes[k]

/-- A byte that the encoding needs is not there. -/
def Missing (mem : ℕ → UInt8) : Prop :=
  ∃ k, 1 ≤ k ∧ k ≤ required (mem 0) ∧ isContinuation (mem k) = false

/-- What is asked of the result. -/
structure Decodes (mem : ℕ → UInt8) (res : DecodedCodepoint) : Prop where
  inverts : ∀ cp < 2 ^ 31, Begins mem (encode cp) →
    isContinuation (mem (encode cp).length) = false →
    res.char.toNat = cp ∧ res.next = some (encode cp).length
  fails : res.next = none ↔ isContinuation (mem 0) = true ∨ Missing mem
  within : res.read ≤ 1 + required (mem 0)

/-! ## The loop -/

variable {mem : ℕ → UInt8} {next rounds chr : ℕ} {char : UInt32}

/-- The loop reads one byte more than `next` says, unless one before that does not continue the
encoding. -/
theorem continuations_read (hrounds : chr + rounds = next) (hpos : 0 < rounds) :
    ∃ res, continuations mem next rounds chr char = some res ∧
      ((∀ k, chr < k → k < next → isContinuation (mem k) = true) → res.read = next + 1) ∧
      ((∃ k, chr < k ∧ k < next ∧ isContinuation (mem k) = false) →
        res.next = none ∧ res.read ≤ next) := by
  induction rounds generalizing chr char with
  | zero => exact (Nat.lt_irrefl 0 hpos).elim
  | succ rounds ih =>
      unfold continuations
      dsimp only
      cases hc : isContinuation (mem (chr + 1)) with
      | false =>
          rw [if_pos (show (!false) = true from rfl)]
          refine ⟨_, rfl, ?_, ?_⟩
          · intro hall
            rcases Nat.lt_or_ge (chr + 1) next with hlt | hge
            · exact absurd (hc.symm.trans (hall _ (Nat.lt_succ_self chr) hlt)) Bool.false_ne_true
            · show chr + 2 = next + 1
              omega
          · rintro ⟨k, hk, hlt, -⟩
            refine ⟨rfl, ?_⟩
            show chr + 2 ≤ next
            omega
      | true =>
          rw [if_neg (show ¬ (!true) = true from Bool.false_ne_true)]
          split
          next hlt =>
            obtain ⟨res, hres, hall, hmissing⟩ := @ih (chr + 1)
              ((char <<< 6) ||| (mem (chr + 1) &&& 0x3F).toUInt32) (by omega) (by omega)
            refine ⟨res, hres, fun h => hall fun k hk => h k (by omega), ?_⟩
            rintro ⟨k, hk, hlt', hkc⟩
            refine hmissing ⟨k, ?_, hlt', hkc⟩
            have hne : k ≠ chr + 1 := by
              rintro rfl
              exact absurd (hkc.symm.trans hc) Bool.false_ne_true
            omega
          next hge =>
            refine ⟨_, rfl, ?_, ?_⟩
            · intro _
              show chr + 2 = next + 1
              omega
            · rintro ⟨k, hk, hlt, -⟩
              omega

/-! ## First bytes -/

/-- From `0xC0` on the first byte starts the loop. -/
theorem getUtf8Codepoint_multi (h : ¬ mem 0 < 0xC0) : ∃ char, getUtf8Codepoint mem =
    continuations mem (1 + required (mem 0)) (1 + required (mem 0)) 0 char := by
  unfold getUtf8Codepoint required
  simp only [UInt8.lt_iff_toNat_lt, UInt8.le_iff_toNat_le, ge_iff_le, UInt8.reduceToNat] at h ⊢
  repeat' split
  all_goals first | omega | exact ⟨_, rfl⟩

theorem getUtf8Codepoint_ascii (h : mem 0 < 0x80) :
    getUtf8Codepoint mem = some ⟨some 1, (mem 0 &&& 0x7F).toUInt32, 1⟩ := by
  unfold getUtf8Codepoint
  simp only [UInt8.lt_iff_toNat_lt, UInt8.le_iff_toNat_le, ge_iff_le, UInt8.reduceToNat] at h ⊢
  rw [if_neg (by omega), if_neg (by omega), if_pos h]

theorem getUtf8Codepoint_continuation (h : ¬ mem 0 < 0x80) (h' : mem 0 < 0xC0) :
    getUtf8Codepoint mem = some (failure 1) := by
  unfold getUtf8Codepoint
  simp only [UInt8.lt_iff_toNat_lt, UInt8.le_iff_toNat_le, ge_iff_le, UInt8.reduceToNat] at h h' ⊢
  rw [if_neg (by omega), if_neg (by omega), if_neg h]

/-- What holds of the bytes of all values holds of all bytes. -/
theorem forall_byte {P : UInt8 → Prop} (h : ∀ i : Fin 256, P (UInt8.ofNat i)) (c : UInt8) : P c := by
  have hc := h ⟨c.toNat, c.toNat_lt⟩
  rwa [UInt8.ofNat_toNat] at hc

theorem isContinuation_iff (c : UInt8) : isContinuation c = true ↔ ¬ c < 0x80 ∧ c < 0xC0 :=
  forall_byte (P := fun c => isContinuation c = true ↔ ¬ c < 0x80 ∧ c < 0xC0) (by decide +kernel) c

theorem ascii_and (c : UInt8) : c < 0x80 → (c &&& 0x7F).toUInt32.toNat = c.toNat :=
  forall_byte (P := fun c => c < 0x80 → (c &&& 0x7F).toUInt32.toNat = c.toNat) (by decide +kernel) c

theorem required_eq_zero (h : mem 0 < 0xC0) : required (mem 0) = 0 := if_pos h

theorem not_missing (h : mem 0 < 0xC0) : ¬ Missing mem := by
  rintro ⟨k, hk, hle, -⟩
  rw [required_eq_zero h] at hle
  omega

/-! ## Encodings -/

theorem groups_length (cp n : ℕ) : (groups cp n).length = n := by
  induction n with
  | zero => rfl
  | succ n ih => exact congrArg (· + 1) ih

theorem ofNat_toNat {n : ℕ} (h : n < 256) : (UInt8.ofNat n).toNat = n := UInt8.toNat_ofNat_of_lt h

theorem groups_continuation (cp n : ℕ) : ∀ c ∈ groups cp n, isContinuation c = true := by
  induction n with
  | zero => exact fun _ hc => nomatch hc
  | succ n ih =>
      refine List.forall_mem_cons.mpr ⟨?_, ih⟩
      have hlt : cp / 64 ^ n % 64 < 64 := Nat.mod_lt _ (by norm_num)
      have hbyte := ofNat_toNat (n := 0x80 + cp / 64 ^ n % 64) (by omega)
      rw [isContinuation_iff]
      simp only [UInt8.lt_iff_toNat_lt, hbyte, UInt8.reduceToNat]
      omega

/-- The first byte of an encoding says how many are to come. -/
theorem required_lead {lead n : ℕ} (hlead : lead < 256) (hn : 1 ≤ n)
    (h : n = 1 ∧ 0xC0 ≤ lead ∧ lead < 0xE0 ∨ n = 2 ∧ 0xE0 ≤ lead ∧ lead < 0xF0 ∨
      n = 3 ∧ 0xF0 ≤ lead ∧ lead < 0xF8 ∨ n = 4 ∧ 0xF8 ≤ lead ∧ lead < 0xFC ∨
      n = 5 ∧ 0xFC ≤ lead) :
    ¬ UInt8.ofNat lead < 0xC0 ∧ required (UInt8.ofNat lead) = n := by
  unfold required
  simp only [UInt8.lt_iff_toNat_lt, ofNat_toNat hlead, UInt8.reduceToNat]
  refine ⟨by omega, ?_⟩
  repeat' split
  all_goals omega

/-- An encoding is a single byte, or a first byte and the continuation bytes that it asks for. -/
theorem encode_cases (cp : ℕ) (h : cp < 2 ^ 31) :
    cp < 0x80 ∧ encode cp = [UInt8.ofNat cp] ∨
      ∃ lead, encode cp = lead :: groups cp (required lead) ∧ ¬ lead < 0xC0 := by
  unfold encode
  have hlong : ∀ lead n, lead < 256 → 1 ≤ n →
      (n = 1 ∧ 0xC0 ≤ lead ∧ lead < 0xE0 ∨ n = 2 ∧ 0xE0 ≤ lead ∧ lead < 0xF0 ∨
        n = 3 ∧ 0xF0 ≤ lead ∧ lead < 0xF8 ∨ n = 4 ∧ 0xF8 ≤ lead ∧ lead < 0xFC ∨
        n = 5 ∧ 0xFC ≤ lead) → ∃ lead', UInt8.ofNat lead :: groups cp n =
          lead' :: groups cp (required lead') ∧ ¬ lead' < 0xC0 := by
    intro lead n hlead hn hcases
    obtain ⟨hge, hreq⟩ := required_lead hlead hn hcases
    exact ⟨_, by rw [hreq], hge⟩
  split
  next hone => exact .inl ⟨hone, rfl⟩
  next =>
    right
    split
    next => exact hlong _ 1 (by omega) (by omega) (by omega)
    next =>
      split
      next => exact hlong _ 2 (by omega) (by omega) (by omega)
      next =>
        split
        next => exact hlong _ 3 (by omega) (by omega) (by omega)
        next =>
          split
          next => exact hlong _ 4 (by omega) (by omega) (by omega)
          next => exact hlong _ 5 (by omega) (by omega) (by omega)

/-- Memory that begins with an encoding of more than one byte misses none of them. -/
theorem Begins.complete {cp : ℕ} {lead : UInt8} (h : Begins mem (encode cp))
    (hcp : encode cp = lead :: groups cp (required lead)) : mem 0 = lead ∧ ¬ Missing mem := by
  rw [hcp] at h
  have hlead : mem 0 = lead := h 0 (Nat.succ_pos _)
  refine ⟨hlead, ?_⟩
  rintro ⟨k, hk, hle, hc⟩
  rw [hlead] at hle
  obtain ⟨j, rfl⟩ : ∃ j, k = j + 1 := ⟨k - 1, by omega⟩
  have hj : j < (groups cp (required lead)).length := by
    rw [groups_length]
    omega
  have hbyte : mem (j + 1) = (groups cp (required lead))[j] := h (j + 1) (Nat.succ_lt_succ hj)
  rw [hbyte, groups_continuation cp _ _ (List.getElem_mem hj)] at hc
  cases hc

/-! ## The whole -/

/-- A byte sequence is decoded as it should be exactly when it does not begin with a complete
character of more than one byte. -/
theorem decodes_iff (mem : ℕ → UInt8) :
    (∃ res, getUtf8Codepoint mem = some res ∧ Decodes mem res) ↔ mem 0 < 0xC0 ∨ Missing mem := by
  constructor
  · rintro ⟨res, hres, hdecodes⟩
    by_contra hnone
    rw [not_or] at hnone
    obtain ⟨hmulti, hcomplete⟩ := hnone
    obtain ⟨char, heq⟩ := getUtf8Codepoint_multi hmulti
    obtain ⟨res', hres', hall, -⟩ := @continuations_read mem _ _ _ char
      (Nat.zero_add (1 + required (mem 0))) (by omega)
    obtain rfl : res' = res := Option.some.inj (hres'.symm.trans (heq.symm.trans hres))
    have hread := hall fun k hk hlt => by
      by_contra hc
      exact hcomplete ⟨k, hk, by omega, (Bool.not_eq_true _).mp hc⟩
    have hwithin := hdecodes.within
    omega
  · intro h
    by_cases hmulti : mem 0 < 0xC0
    · have hnone := not_missing hmulti
      have hone : ∀ cp < 2 ^ 31, Begins mem (encode cp) → cp < 0x80 ∧ encode cp = [mem 0] := by
        intro cp hcp hbegins
        rcases encode_cases cp hcp with ⟨hlt, hencode⟩ | ⟨lead, hencode, hlead⟩
        · have hbyte : mem 0 = UInt8.ofNat cp := by
            rw [hencode] at hbegins
            exact hbegins 0 Nat.one_pos
          exact ⟨hlt, by rw [hencode, hbyte]⟩
        · exact (hlead ((hbegins.complete hencode).1 ▸ hmulti)).elim
      by_cases hascii : mem 0 < 0x80
      · refine ⟨_, getUtf8Codepoint_ascii hascii, ?_, ?_, Nat.le_add_right 1 _⟩
        · intro cp hcp hbegins _
          obtain ⟨hlt, hencode⟩ := hone cp hcp hbegins
          have hbyte : UInt8.ofNat cp = mem 0 := by
            have hpair := (if_pos hlt).symm.trans hencode
            exact (List.cons.inj hpair).1
          refine ⟨?_, by rw [hencode]; rfl⟩
          rw [ascii_and _ hascii, ← hbyte]
          exact ofNat_toNat (by omega)
        · refine ⟨fun hnull => (Option.some_ne_none 1 hnull).elim, ?_⟩
          rintro (hc | hmissing)
          · exact (((isContinuation_iff _).mp hc).1 hascii).elim
          · exact (hnone hmissing).elim
      · refine ⟨_, getUtf8Codepoint_continuation hascii hmulti, ?_, ?_, Nat.le_add_right 1 _⟩
        · intro cp hcp hbegins _
          obtain ⟨hlt, hencode⟩ := hone cp hcp hbegins
          have hbyte : UInt8.ofNat cp = mem 0 := by
            have hpair := (if_pos hlt).symm.trans hencode
            exact (List.cons.inj hpair).1
          refine (hascii ?_).elim
          rw [← hbyte, UInt8.lt_iff_toNat_lt, ofNat_toNat (by omega)]
          exact hlt
        · exact ⟨fun _ => .inl ((isContinuation_iff _).mpr ⟨hascii, hmulti⟩), fun _ => rfl⟩
    · have hmissing := h.resolve_left hmulti
      obtain ⟨char, heq⟩ := getUtf8Codepoint_multi hmulti
      obtain ⟨res, hres, -, hfails⟩ := @continuations_read mem _ _ _ char
        (Nat.zero_add (1 + required (mem 0))) (by omega)
      obtain ⟨k, hk, hle, hc⟩ := hmissing
      obtain ⟨hnext, hread⟩ := hfails ⟨k, hk, by omega, hc⟩
      refine ⟨res, heq.trans hres, ?_, ?_, hread⟩
      · intro cp hcp hbegins _
        rcases encode_cases cp hcp with ⟨hlt, hencode⟩ | ⟨lead, hencode, hlead⟩
        · rw [hencode] at hbegins
          have hbyte : mem 0 = UInt8.ofNat cp := hbegins 0 Nat.one_pos
          refine (hmulti ?_).elim
          rw [hbyte, UInt8.lt_iff_toNat_lt, ofNat_toNat (by omega)]
          exact Nat.lt_trans hlt (by decide)
        · exact ((hbegins.complete hencode).2 ⟨k, hk, hle, hc⟩).elim
      · exact ⟨fun _ => .inr ⟨k, hk, hle, hc⟩, fun _ => hnext⟩

/-- A character of two bytes before the end of a string is not decoded. -/
theorem not_decodes : ¬ ∀ mem : ℕ → UInt8,
    ∃ res, getUtf8Codepoint mem = some res ∧ Decodes mem res := by
  intro hclaim
  have h := (decodes_iff fun k => if k = 0 then 0xC3 else if k = 1 then 0xA9 else 0).mp (hclaim _)
  rcases h with hlow | ⟨k, hk, hle, hc⟩
  · exact absurd hlow (by decide)
  · obtain rfl : k = 1 := Nat.le_antisymm hle hk
    exact absurd hc (by decide)

end Beelzebub.Utf8
