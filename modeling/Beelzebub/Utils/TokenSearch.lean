import Beelzebub.Lib.Word
import Beelzebub.Utils.Strings
import Mathlib.Data.Nat.Notation
import Mathlib.Tactic.Common

/-!
# Search for a token

A haystack is cut at separators, and the search is for a piece that is the needle.  The loop goes
from one separator to the next, and the zero at the end is a separator too.
-/

namespace Beelzebub.Strings

/-! ## The code -/

/-- `repe cmpsb` on two strings: the zero flag after it, for so many bytes and the flag before. -/
def repeCmpsb : Pointer → Pointer → ℕ → Bool → Option Bool
  | _, _, 0, zf => some zf
  | c :: src1, d :: src2, len + 1, _ =>
      if c = d then repeCmpsb src1 src2 len true else some false
  | _, _, _ + 1, _ => none

/-- `same` is whether the two addresses are equal. -/
def memeq (same : Bool) (src1 src2 : Pointer) (len : ℕ) (zf : Bool) : Option Bool :=
  if same then some true else repeCmpsb src1 src2 len zf

/-- `while (memchr(seps, haystack[++j], sLen) == nullptr)`, for so many rounds. -/
def findSep (haystack seps : Pointer) (sLen : ℕ) : ℕ → ℕ → Option ℕ
  | 0, _ => none
  | fuel + 1, j =>
      let j := Word.add j 1
      match haystack[j]? with
      | none => none
      | some c =>
          match memchr seps c sLen with
          | none => none
          | some true => some j
          | some false => findSep haystack seps sLen fuel j

/-- The loop over the starts of pieces, for so many rounds.  `same i` is whether `haystack + i` is
the address of the needle. -/
def findToken (haystack needle seps : Pointer) (same : ℕ → Bool) (nLen sLen lenDiff : ℕ)
    (zf : Bool) : ℕ → ℕ → Option (Option ℕ)
  | 0, _ => none
  | fuel + 1, i =>
      if i ≤ lenDiff then
        match findSep haystack seps sLen haystack.length (Word.sub i 1) with
        | none => none
        | some j =>
            if Word.sub j i = nLen then
              match memeq (same i) (haystack.drop i) needle nLen zf with
              | none => none
              | some true => some (some i)
              | some false =>
                  findToken haystack needle seps same nLen sLen lenDiff zf fuel (Word.add j 1)
            else findToken haystack needle seps same nLen sLen lenDiff zf fuel (Word.add j 1)
      else some none

/-- The index of the result in the haystack, or none. -/
def strstrex (haystack needle seps : Pointer) (same : ℕ → Bool) (zf : Bool) :
    Option (Option ℕ) :=
  match strlen haystack, strlen needle with
  | some hLen, some nLen =>
      if hLen < nLen then some none
      else
        match strlen seps with
        | none => none
        | some sLen =>
            findToken haystack needle seps same nLen (sLen + 1) (hLen - nLen) zf haystack.length 0
  | _, _ => none

/-! ## Tokens -/

/-- A longest run of the string without separators. -/
structure IsToken (seps chars : List UInt8) (i : ℕ) (t : List UInt8) : Prop where
  split : ∃ front back, chars = front ++ (t ++ back) ∧ front.length = i ∧
    (∀ c ∈ front.getLast?, c ∈ seps) ∧ ∀ c ∈ back.head?, c ∈ seps
  free : ∀ c ∈ t, c ∉ seps

variable {seps chars front back t u : List UInt8} {i k : ℕ}

/-- Two runs from one place on are the same. -/
theorem run_unique {v w : List UInt8} (h : t ++ v = u ++ w) (ht : ∀ c ∈ t, c ∉ seps)
    (hu : ∀ c ∈ u, c ∉ seps) (hv : ∀ c ∈ v.head?, c ∈ seps) (hw : ∀ c ∈ w.head?, c ∈ seps) :
    t = u := by
  induction t generalizing u with
  | nil =>
      cases u with
      | nil => rfl
      | cons c u =>
          obtain rfl : v = c :: (u ++ w) := h
          exact absurd (hv c rfl) (hu c List.mem_cons_self)
  | cons c t ih =>
      cases u with
      | nil =>
          obtain rfl : w = c :: (t ++ v) := h.symm
          exact absurd (hw c rfl) (ht c List.mem_cons_self)
      | cons d u =>
          obtain ⟨rfl, hrest⟩ := List.cons.inj h
          rw [ih hrest (fun e he => ht e (List.mem_cons_of_mem c he))
            fun e he => hu e (List.mem_cons_of_mem c he)]

/-- A token that starts in a run, or right behind it, is the run. -/
theorem IsToken.eq_run (h : IsToken seps (front ++ (t ++ back)) k u)
    (hfree : ∀ c ∈ t, c ∉ seps) (hback : ∀ c ∈ back.head?, c ∈ seps) (hle : front.length ≤ k)
    (hlt : k ≤ front.length + t.length) : k = front.length ∧ u = t := by
  obtain ⟨⟨front', back', heq, rfl, hfront', hback'⟩, hfree'⟩ := h
  have hpre : front = front'.take front.length := by
    have := congrArg (List.take front.length) heq
    rwa [List.take_left, List.take_append_of_le_length hle] at this
  obtain ⟨mid, hmid⟩ : ∃ mid, front' = front ++ mid :=
    ⟨front'.drop front.length, by
      conv_lhs => rw [← List.take_append_drop front.length front', ← hpre]⟩
  subst hmid
  rw [List.append_assoc] at heq
  have hrest := List.append_cancel_left heq
  have hlen : mid.length ≤ t.length := by
    rw [List.length_append] at hlt
    omega
  have hmid : mid = t.take mid.length := by
    have := congrArg (List.take mid.length) hrest
    rw [List.take_left, List.take_append_of_le_length hlen] at this
    exact this.symm
  -- The character in front of the token is not in the run.
  have hnil : mid = [] := by
    cases hlast : mid.getLast? with
    | none => exact List.getLast?_eq_none_iff.mp hlast
    | some c =>
        have hc : c ∈ t := by
          refine List.mem_of_mem_take (i := mid.length) ?_
          rw [← hmid]
          exact List.mem_of_getLast? hlast
        refine absurd (hfront' c ?_) (hfree c hc)
        rw [List.getLast?_append, hlast]
        rfl
  subst hnil
  rw [List.append_nil]
  rw [List.nil_append] at hrest
  exact ⟨rfl, (run_unique hrest hfree hfree' hback hback').symm⟩

/-- Every string begins with a run. -/
theorem exists_run (seps chars : List UInt8) :
    ∃ t back, chars = t ++ back ∧ (∀ c ∈ t, c ∉ seps) ∧ ∀ c ∈ back.head?, c ∈ seps := by
  induction chars with
  | nil => exact ⟨[], [], rfl, nofun, nofun⟩
  | cons c chars ih =>
      by_cases hc : c ∈ seps
      · refine ⟨[], c :: chars, rfl, nofun, fun d hd => ?_⟩
        cases hd
        exact hc
      · obtain ⟨t, back, rfl, hfree, hback⟩ := ih
        refine ⟨c :: t, back, rfl, fun d hd => ?_, hback⟩
        cases hd with
        | head => exact hc
        | tail _ hd => exact hfree d hd

theorem IsToken.le_length (h : IsToken seps chars i t) : i + t.length ≤ chars.length := by
  obtain ⟨⟨front, back, rfl, rfl, -⟩, -⟩ := h
  simp

/-- What a search for the first token is to return. -/
def IsFirst (seps chars t : List UInt8) : Option ℕ → Prop
  | some i => IsToken seps chars i t ∧ ∀ k < i, ¬IsToken seps chars k t
  | none => ∀ k, ¬IsToken seps chars k t

/-! ## The two loops -/

theorem repeCmpsb_append {v w : List UInt8} (hlen : t.length = u.length) :
    repeCmpsb (t ++ v) (u ++ w) u.length true = some (decide (t = u)) := by
  induction t generalizing u with
  | nil =>
      obtain rfl := List.length_eq_zero_iff.mp hlen.symm
      unfold repeCmpsb
      rfl
  | cons c t ih =>
      cases u with
      | nil => exact nomatch hlen
      | cons d u =>
          show (if c = d then repeCmpsb (t ++ v) (u ++ w) u.length true else some false) = _
          by_cases hc : c = d
          · subst hc
            rw [if_pos rfl, ih (Nat.succ.inj hlen)]
            simp
          · rw [if_neg hc]
            simp [hc]

/-- The flag before does not matter where there is something to compare. -/
theorem memeq_token {v w : List UInt8} {same : Bool} (hne : u ≠ []) (hlen : t.length = u.length)
    (hsame : same = true → t ++ v = u ++ w) (zf : Bool) :
    memeq same (t ++ v) (u ++ w) u.length zf = some (decide (t = u)) := by
  cases same with
  | true => rw [decide_eq_true (List.append_inj_left (hsame rfl) hlen), memeq, if_pos rfl]
  | false =>
      rw [← repeCmpsb_append (v := v) (w := w) hlen]
      cases u with
      | nil => exact (hne rfl).elim
      | cons d u =>
          cases t with
          | nil => exact nomatch hlen
          | cons c t => rfl

theorem memchr_seps (seps : CString) (c : UInt8) :
    memchr seps.bytes c (seps.length + 1) = some (decide (c ∈ seps.bytes)) := by
  have h := memchr_all seps.bytes [] c
  rw [List.append_nil] at h
  rw [← h, CString.bytes, List.length_append]
  rfl

/-- The start of a piece less one, which wraps for the first, and the increment before the read. -/
theorem next_sub (hi : i < 2 ^ 64) : Word.add (Word.sub i 1) 1 = i := by
  unfold Word.add Word.sub
  omega

/-- The scan stops at the end of the run. -/
theorem findSep_run (seps : CString) {rest : List UInt8} {c : UInt8} {fuel : ℕ}
    (hfree : ∀ d ∈ t, d ∉ seps.bytes) (hc : c ∈ seps.bytes)
    (hbound : front.length + t.length < 2 ^ 64) (hfuel : t.length < fuel) :
    findSep (front ++ (t ++ c :: rest)) seps.bytes (seps.length + 1) fuel
      (Word.sub front.length 1) = some (front.length + t.length) := by
  induction t generalizing front fuel with
  | nil =>
      cases fuel with
      | zero => exact absurd hfuel (Nat.not_lt_zero _)
      | succ fuel =>
          unfold findSep
          rw [next_sub (Nat.lt_of_le_of_lt (Nat.le_add_right _ _) hbound)]
          simp [memchr_seps, hc]
  | cons d t ih =>
      cases fuel with
      | zero => exact absurd hfuel (Nat.not_lt_zero _)
      | succ fuel =>
          have hlen : (front ++ [d]).length = front.length + 1 := by simp
          rw [List.length_cons] at hbound hfuel
          have hrest := @ih (front ++ [d]) fuel
            (fun e he => hfree e (List.mem_cons_of_mem d he)) (by omega) (by omega)
          rw [hlen, Word.sub_of_le (by omega) (by omega), Nat.add_sub_cancel,
            List.append_assoc] at hrest
          unfold findSep
          rw [next_sub (by omega)]
          have hd : d ∉ seps.bytes := hfree d List.mem_cons_self
          simp only [List.cons_append, List.getElem?_append_right (Nat.le_refl _), Nat.sub_self,
            List.getElem?_cons_zero, memchr_seps, decide_eq_false hd]
          rw [List.singleton_append] at hrest
          rw [hrest, List.length_cons]
          exact congrArg some (by omega)

/-- What stands behind a run ends it. -/
theorem exists_separator (seps : CString) (hback : ∀ c ∈ back.head?, c ∈ seps.chars) :
    ∃ c rest, back ++ [0] = c :: rest ∧ c ∈ seps.bytes := by
  cases back with
  | nil => exact ⟨0, [], rfl, by simp [CString.bytes]⟩
  | cons c back => exact ⟨c, back ++ [0], rfl, List.mem_append_left [0] (hback c rfl)⟩

theorem length_split {s : CString} (h : s.chars = front ++ (t ++ back)) :
    front.length + (t.length + back.length) = s.length := by
  rw [CString.length, h, List.length_append, List.length_append]

/-- The scan of a haystack from the start of a piece. -/
theorem findSep_piece (seps : CString) {haystack : CString} (hbound : haystack.length + 1 < 2 ^ 64)
    (hsplit : haystack.chars = front ++ (t ++ back)) (hfree : ∀ c ∈ t, c ∉ seps.chars)
    (hback : ∀ c ∈ back.head?, c ∈ seps.chars) :
    findSep haystack.bytes seps.bytes (seps.length + 1) haystack.bytes.length
      (Word.sub front.length 1) = some (front.length + t.length) := by
  have hlength := length_split hsplit
  obtain ⟨c, rest, hrest, hc⟩ := exists_separator seps hback
  have hbytes : haystack.bytes = front ++ (t ++ c :: rest) := by
    rw [CString.bytes, hsplit, List.append_assoc, List.append_assoc, hrest]
  rw [hbytes]
  refine findSep_run seps (fun d hd h => ?_) hc (by omega) ?_
  · cases List.mem_append.mp h with
    | inl h => exact hfree d hd h
    | inr h =>
        -- No character of the run is the zero at the end.
        rw [List.mem_singleton] at h
        refine haystack.nonzero ?_
        rw [hsplit, ← h]
        exact List.mem_append_right _ (List.mem_append_left _ hd)
  · simp only [List.length_append, List.length_cons]
    omega

/-- Behind a run that is not the token there is none yet. -/
theorem not_isToken_past (hne : t ≠ u) (hfree : ∀ c ∈ t, c ∉ seps)
    (hback : ∀ c ∈ back.head?, c ∈ seps)
    (hnone : ∀ k < front.length, ¬IsToken seps (front ++ (t ++ back)) k u) :
    ∀ k < front.length + t.length + 1, ¬IsToken seps (front ++ (t ++ back)) k u := by
  intro k hk h
  by_cases hlt : k < front.length
  · exact hnone k hlt h
  · exact hne (h.eq_run hfree hback (Nat.le_of_not_lt hlt) (Nat.le_of_lt_succ hk)).2.symm

theorem findToken_past {haystack needle seps : Pointer} {nLen sLen lenDiff fuel : ℕ}
    (same : ℕ → Bool) (zf : Bool) (hi : lenDiff < i) (hfuel : 0 < fuel) :
    findToken haystack needle seps same nLen sLen lenDiff zf fuel i = some none := by
  cases fuel with
  | zero => exact absurd hfuel (Nat.lt_irrefl 0)
  | succ fuel => exact if_neg (Nat.not_le_of_lt hi)

/-- The loop from the start of a piece with no token in front of it. -/
theorem findToken_first (haystack needle seps : CString) {same : ℕ → Bool} (zf : Bool)
    {rest : List UInt8} {fuel : ℕ}
    (hsame : ∀ i, same i = true → haystack.bytes.drop i = needle.bytes) (hne : needle.chars ≠ [])
    (hle : needle.length ≤ haystack.length) (hbound : haystack.length + 1 < 2 ^ 64)
    (hsplit : haystack.chars = front ++ rest) (hfront : ∀ c ∈ front.getLast?, c ∈ seps.chars)
    (hnone : ∀ k < front.length, ¬IsToken seps.chars haystack.chars k needle.chars)
    (hfuel : rest.length < fuel) :
    ∃ res, findToken haystack.bytes needle.bytes seps.bytes same needle.length (seps.length + 1)
        (haystack.length - needle.length) zf fuel front.length = some res ∧
      IsFirst seps.chars haystack.chars needle.chars res := by
  induction fuel generalizing front rest with
  | zero => exact absurd hfuel (Nat.not_lt_zero _)
  | succ fuel ih =>
      unfold findToken
      by_cases hi : front.length ≤ haystack.length - needle.length
      · rw [if_pos hi]
        obtain ⟨t, back, rfl, hfree, hback⟩ := exists_run seps.chars rest
        have hlength := length_split hsplit
        have hsep := findSep_piece seps hbound hsplit hfree hback
        -- The next piece starts behind the separator, or behind the end.
        have hnext : t ≠ needle.chars → ∃ res, findToken haystack.bytes needle.bytes seps.bytes
            same needle.length (seps.length + 1) (haystack.length - needle.length) zf fuel
            (Word.add (front.length + t.length) 1) = some res ∧
              IsFirst seps.chars haystack.chars needle.chars res := by
          intro hother
          have hpast := not_isToken_past hother hfree hback (hsplit ▸ hnone)
          rw [← hsplit] at hpast
          rw [Word.add_of_lt (by omega)]
          cases back with
          | nil =>
              rw [List.length_nil, Nat.add_zero] at hlength
              rw [hlength] at hpast ⊢
              refine ⟨none, findToken_past same zf ?_ ?_, fun k hk => hpast k ?_ hk⟩
              · exact Nat.lt_succ_of_le (Nat.sub_le _ _)
              · have hpos : 0 < needle.length := List.length_pos_iff.mpr hne
                simp only [List.length_append, List.length_nil] at hfuel
                omega
              · exact Nat.lt_succ_of_le (Nat.le_trans (Nat.le_add_right _ _) hk.le_length)
          | cons c back =>
              have hlen : (front ++ t ++ [c]).length = front.length + t.length + 1 := by
                simp [Nat.add_assoc]
              rw [← hlen] at hpast ⊢
              refine @ih _ back ?_ ?_ hpast ?_
              · rw [hsplit]
                simp
              · intro d hd
                rw [List.getLast?_concat] at hd
                cases hd
                exact hback c rfl
              · simp only [List.length_append, List.length_cons] at hfuel
                omega
        rw [hsep]
        dsimp only
        rw [Word.sub_of_le (by omega) (Nat.le_add_right _ _), Nat.add_sub_cancel_left]
        by_cases hlen : t.length = needle.length
        · have hdrop : haystack.bytes.drop front.length = t ++ (back ++ [0]) := by
            rw [CString.bytes, hsplit, List.append_assoc, List.append_assoc, List.drop_left]
          have hmemeq := memeq_token (v := back ++ [0]) (w := [0]) hne hlen
            (fun h => hdrop.symm.trans (hsame _ h)) zf
          rw [if_pos hlen, hdrop]
          show ∃ res, (match memeq (same front.length) (t ++ (back ++ [0])) (needle.chars ++ [0])
            needle.chars.length zf with
            | none => none
            | some true => some (some front.length)
            | some false => _) = some res ∧ _
          rw [hmemeq]
          by_cases heq : t = needle.chars
          · rw [decide_eq_true heq]
            refine ⟨some front.length, rfl, ⟨⟨front, back, ?_, rfl, hfront, hback⟩, ?_⟩, hnone⟩
            · rw [hsplit, heq]
            · rw [← heq]
              exact hfree
          · rw [decide_eq_false heq]
            exact hnext heq
        · rw [if_neg hlen]
          exact hnext fun h => hlen (congrArg List.length h)
      · rw [if_neg hi]
        refine ⟨none, rfl, fun k hk => ?_⟩
        -- Only a start that leaves room for the needle is the start of one.
        have hend : k + needle.length ≤ haystack.length := hk.le_length
        exact hnone k (by omega) hk

/-- The search ends without a read past either end, and returns the start of the first piece of the
haystack that is the needle, or null where no piece is. -/
theorem strstrex_first (haystack needle seps : CString) (same : ℕ → Bool) (zf : Bool)
    (hsame : ∀ i, same i = true → haystack.bytes.drop i = needle.bytes)
    (hne : needle.chars ≠ []) (hbound : haystack.length + 1 < 2 ^ 64) :
    ∃ res, strstrex haystack.bytes needle.bytes seps.bytes same zf = some res ∧
      IsFirst seps.chars haystack.chars needle.chars res := by
  have hlen (s : CString) : strlen s.bytes = some s.length := strlen_append s.nonzero
  unfold strstrex
  simp only [hlen]
  by_cases hlt : haystack.length < needle.length
  · rw [if_pos hlt]
    refine ⟨none, rfl, fun k hk => ?_⟩
    have hle : k + needle.length ≤ haystack.length := hk.le_length
    omega
  · rw [if_neg hlt]
    refine @findToken_first [] haystack needle seps same zf _ _ hsame hne
      (Nat.le_of_not_lt hlt) hbound rfl nofun (fun k hk => absurd hk (Nat.not_lt_zero k)) ?_
    rw [CString.bytes, List.length_append]
    exact Nat.lt_succ_self _

/-- The third piece of `ab,a,b,,b` is the first that is a `b`. -/
theorem strstrex_first_third :
    ∃ res, strstrex [97, 98, 44, 97, 44, 98, 44, 44, 98, 0] [98, 0] [44, 0] (fun _ => false)
        false = some res ∧
      IsFirst [44] [97, 98, 44, 97, 44, 98, 44, 44, 98] [98] res :=
  strstrex_first ⟨[97, 98, 44, 97, 44, 98, 44, 44, 98], by decide⟩ ⟨[98], by decide⟩
    ⟨[44], by decide⟩ (fun _ => false) false nofun (by decide) (by decide)

end Beelzebub.Strings
