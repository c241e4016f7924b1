import Beelzebub.InitRd
import Beelzebub.Lib.Numerals

/-!
# Archives

A well-formed archive is a row of headers, each with its data behind it in whole blocks, and a block
of zeros.  `GetNext` goes from header to header, and stops at the zeros.
-/

namespace Beelzebub.InitRd

open Numerals

/-! ## The code -/

/-- The header at an address. -/
def headerAt (mem : ℕ → UInt8) (cursor : ℕ) : TarHeader := fun k => mem (cursor + k)

/-- The headers that are visited from one on, up to a null pointer. -/
def visit (mem : ℕ → UInt8) : ℕ → ℕ → Option (List ℕ)
  | 0, _ => none
  | rounds + 1, cursor =>
      if cursor = 0 then some []
      else (visit mem rounds ((headerAt mem cursor).getNext cursor)).map (cursor :: ·)

/-! ## Well-formed archives -/

/-- The digits of the size. -/
def TarHeader.sizeDigits (h : TarHeader) : List ℕ :=
  (List.range' 0 11).map fun k => (h (124 + k)).toNat - 0x30

/-- The fields that tell a header from zeros are not empty, and the size has eleven octal digits. -/
structure TarHeader.WellFormed (h : TarHeader) : Prop where
  mode : h 100 ≠ 0
  user : h 108 ≠ 0
  group : h 116 ≠ 0
  digits : ∀ k < 11, 0x30 ≤ h (124 + k) ∧ h (124 + k) ≤ 0x37
  typed : h.typeFlag ≠ 0

/-- In memory there are from `cursor` on headers at these addresses, each with its data in whole
blocks, and a block of zeros at `last`. -/
inductive Archive (mem : ℕ → UInt8) : ℕ → List ℕ → ℕ → Prop
  | zero {last : ℕ} : (∀ k < 512, mem (last + k) = 0) → Archive mem last [] last
  | entry {cursor last size : ℕ} {cursors : List ℕ} : (headerAt mem cursor).WellFormed →
      number 8 (headerAt mem cursor).sizeDigits = size →
      Archive mem (cursor + 512 + (size + 511) / 512 * 512) cursors last →
      Archive mem cursor (cursor :: cursors) last

/-! ## The size -/

namespace TarHeader

variable {c : UInt8} {h : TarHeader}

theorem digit_octal (hlow : 0x30 ≤ c) (hupp : c ≤ 0x37) (shift : ℕ) :
    digit c shift = (c.toNat - 0x30) * 2 ^ shift := by
  have hlow : 48 ≤ c.toNat := UInt8.le_iff_toNat_le.mp hlow
  have hupp : c.toNat ≤ 55 := UInt8.le_iff_toNat_le.mp hupp
  have hint : c.toInt8.toInt = (c.toNat : ℤ) := by
    rw [← Int8.toInt_toBitVec, UInt8.toBitVec_toInt8, BitVec.toInt_eq_toNat_of_lt]
    · rfl
    · rw [UInt8.toNat_toBitVec]
      omega
  unfold digit
  rw [hint, Nat.shiftLeft_eq]
  congr 1
  omega

/-- What the cases of `GetNumber` add up is the number, as long as nothing wraps. -/
theorem addDigits_eq {str : ℕ → UInt8} {size : ℕ}
    (hdigits : ∀ k < size, 0x30 ≤ str k ∧ str k ≤ 0x37) {num val : ℕ} (hnum : num ≤ size)
    (hlt : val + 8 ^ num ≤ 2 ^ 64) :
    addDigits str size num val =
      val + number 8 ((List.range' (size - num) num).map fun k => (str k).toNat - 0x30) := by
  induction num generalizing val with
  | zero => rfl
  | succ num ih =>
      have hk : size - (num + 1) < size := by omega
      have hnext : size - (num + 1) + 1 = size - num := by omega
      obtain ⟨hlow, hupp⟩ := hdigits _ hk
      have hseven : (str (size - (num + 1))).toNat - 0x30 ≤ 7 := by
        have hupp : (str (size - (num + 1))).toNat ≤ 55 := UInt8.le_iff_toNat_le.mp hupp
        omega
      have hpow : 2 ^ (3 * num) = 8 ^ num := by rw [Nat.pow_mul]
      have hmul := Nat.mul_le_mul_right (8 ^ num) hseven
      rw [Nat.pow_succ] at hlt
      have hpos : 0 < 8 ^ num := Nat.pow_pos (by decide)
      rw [addDigits, digit_octal hlow hupp, hpow, Nat.mod_eq_of_lt (by omega),
        ih (by omega) (by omega), List.range'_succ, List.map_cons, number_cons, List.length_map,
        List.length_range', hnext]
      omega

theorem WellFormed.getSize (hform : h.WellFormed) : h.getSize = number 8 h.sizeDigits := by
  refine (addDigits_eq hform.digits (Nat.le_refl 11) (by decide)).trans ?_
  rw [Nat.zero_add]
  rfl

/-- Eleven digits are a number of 33 bits. -/
theorem WellFormed.size_lt (hform : h.WellFormed) : number 8 h.sizeDigits < 2 ^ 33 := by
  have hlt : number 8 h.sizeDigits < 8 ^ h.sizeDigits.length := by
    refine number_lt (by decide) fun d hd => ?_
    obtain ⟨k, hk, rfl⟩ := List.mem_map.mp hd
    have hupp : (h (124 + k)).toNat ≤ 55 :=
      UInt8.le_iff_toNat_le.mp (hform.digits k (by simpa using hk)).2
    omega
  have hlen : h.sizeDigits.length = 11 := by
    unfold sizeDigits
    rw [List.length_map, List.length_range']
  rw [hlen] at hlt
  exact Nat.lt_of_lt_of_eq hlt (by norm_num)

theorem WellFormed.isZero (hform : h.WellFormed) : h.isZero = false := by
  have hsize : h 124 ≠ 0 := by
    intro hzero
    have hlow := (hform.digits 0 (by decide)).1
    rw [Nat.add_zero, hzero] at hlow
    exact absurd hlow (by decide)
  unfold TarHeader.isZero
  simp [hsize, hform.user, hform.group, hform.mode, hform.typed]

end TarHeader

/-! ## The walk -/

variable {mem : ℕ → UInt8} {cursor last size : ℕ} {cursors : List ℕ}

/-- The next header is behind the data in whole blocks. -/
theorem getNext_wellFormed (hform : (headerAt mem cursor).WellFormed)
    (hlt : cursor + 512 + (number 8 (headerAt mem cursor).sizeDigits + 511) / 512 * 512 < 2 ^ 64) :
    (headerAt mem cursor).getNext cursor =
      cursor + 512 + (number 8 (headerAt mem cursor).sizeDigits + 511) / 512 * 512 := by
  have hsize := hform.size_lt
  unfold TarHeader.getNext
  rw [hform.isZero, if_neg Bool.false_ne_true, hform.getSize,
    Nat.mod_eq_of_lt (a := number 8 _ + 1023) (by omega)]
  have hblocks : (number 8 (headerAt mem cursor).sizeDigits + 1023) / 512 * 512 =
      512 + (number 8 (headerAt mem cursor).sizeDigits + 511) / 512 * 512 := by omega
  rw [hblocks, ← Nat.add_assoc, Nat.mod_eq_of_lt hlt]

/-- The zeros are behind the headers. -/
theorem Archive.le_last (h : Archive mem cursor cursors last) : cursor ≤ last := by
  induction h with
  | zero _ => exact Nat.le_refl _
  | entry _ _ _ ih => omega

/-- The headers are in the archive. -/
theorem Archive.within (h : Archive mem cursor cursors last) :
    ∀ c ∈ cursors, cursor ≤ c ∧ c + 512 ≤ last := by
  induction h with
  | zero _ => exact nofun
  | @entry cursor last size cursors _ _ hrest ih =>
      have hle := hrest.le_last
      intro c hc
      rcases List.mem_cons.mp hc with rfl | hc
      · omega
      · have hin := ih c hc
        omega

/-- No header is there twice, and the zeros are behind all of them. -/
theorem Archive.sorted (h : Archive mem cursor cursors last) :
    (cursors ++ [last]).Pairwise (· < ·) := by
  induction h with
  | zero _ => exact List.pairwise_singleton _ _
  | @entry cursor last size cursors _ _ hrest ih =>
      rw [List.cons_append, List.pairwise_cons]
      refine ⟨fun c hc => ?_, ih⟩
      have hle := hrest.le_last
      rcases List.mem_append.mp hc with hc | hc
      · have hin := hrest.within c hc
        omega
      · obtain rfl := List.mem_singleton.mp hc
        omega

/-- Zeros have no next header. -/
theorem getNext_zeros (hzeros : ∀ k < 512, mem (last + k) = 0) :
    (headerAt mem last).getNext last = 0 := by
  have hsize : headerAt mem last 124 = 0 := hzeros 124 (by decide)
  refine getNext_zero ?_
  unfold TarHeader.isZero
  simp [hsize]

theorem Archive.zeros (h : Archive mem cursor cursors last) : ∀ k < 512, mem (last + k) = 0 := by
  induction h with
  | zero hzeros => exact hzeros
  | entry _ _ _ ih => exact ih

theorem Archive.visit (h : Archive mem cursor cursors last) (hpos : 0 < cursor)
    (hend : last + 512 ≤ 2 ^ 64) {rounds : ℕ} (hrounds : cursors.length + 1 < rounds) :
    visit mem rounds cursor = some (cursors ++ [last]) := by
  induction h generalizing rounds with
  | @zero last hzeros =>
      obtain ⟨rounds, rfl⟩ := Nat.exists_eq_add_of_lt hrounds
      have hstop : 0 + (0 + 1) + rounds + 1 = rounds + 1 + 1 := by omega
      rw [List.length_nil, hstop, InitRd.visit, if_neg (Nat.ne_of_gt hpos), getNext_zeros hzeros,
        InitRd.visit, if_pos rfl]
      rfl
  | @entry cursor last size cursors hform hsize hrest ih =>
      obtain ⟨rounds, rfl⟩ : ∃ k, rounds = k + 1 := ⟨rounds - 1, by omega⟩
      have hle := hrest.le_last
      subst hsize
      rw [List.length_cons] at hrounds
      rw [InitRd.visit, if_neg (Nat.ne_of_gt hpos), getNext_wellFormed hform (by omega),
        ih (by omega) hend (by omega)]
      rfl

/-- Every header is visited once, in order, and then the zeros, at which there is no next one; and
every address on the way is that of a block of the archive. -/
theorem visit_archive (h : Archive mem cursor cursors last) (hpos : 0 < cursor)
    (hend : last + 512 ≤ 2 ^ 64) :
    (∃ rounds, visit mem rounds cursor = some (cursors ++ [last])) ∧
      (headerAt mem last).getNext last = 0 ∧ (cursors ++ [last]).Pairwise (· < ·) ∧
      ∀ c ∈ cursors ++ [last], cursor ≤ c ∧ c + 512 ≤ last + 512 := by
  refine ⟨⟨cursors.length + 2, h.visit hpos hend (Nat.lt_succ_self _)⟩, getNext_zeros h.zeros,
    h.sorted, fun c hc => ?_⟩
  have hle := h.le_last
  rcases List.mem_append.mp hc with hc | hc
  · have hin := h.within c hc
    omega
  · obtain rfl := List.mem_singleton.mp hc
    exact ⟨hle, Nat.le_refl _⟩

/-- A header with no data, and zeros. -/
theorem visit_archive_empty :
    (∃ rounds, visit (fun k => if k < 1024 then 0x30 else 0) rounds 512 = some ([512] ++ [1024])) ∧
      (headerAt (fun k => if k < 1024 then 0x30 else 0) 1024).getNext 1024 = 0 ∧
      ([512] ++ [1024]).Pairwise (· < ·) ∧
      ∀ c ∈ [512] ++ [1024], 512 ≤ c ∧ c + 512 ≤ 1024 + 512 := by
  have hzeros : Archive (fun k => if k < 1024 then 0x30 else 0) 1024 [] 1024 :=
    .zero fun k _ => if_neg (by omega)
  have hform : (headerAt (fun k => if k < 1024 then 0x30 else 0) 512).WellFormed := by
    constructor
    case mode => decide
    case user => decide
    case group => decide
    case digits => decide
    case typed => decide
  exact visit_archive (@Archive.entry _ 512 1024 0 [] hform (by decide) hzeros) (by decide)
    (by decide)

end Beelzebub.InitRd
