import Beelzebub.Lib.Circular
import Beelzebub.Lib.Word

/-!
# The concurrent ring buffer, one call at a time

Four positions run freely and are taken modulo the capacity where the buffer is accessed: the
hard ones bound what consumers may read and producers may overwrite, the soft ones what is
spoken for.  A consumer gets a cookie and returns it when it is done.

Here calls do not overlap, so that what a call has loaded is still there when it exchanges.  A
division by zero and a read behind the pushed elements are the outcome `none`, as is waiting
forever.
-/

namespace Beelzebub.Utils

/-! ## The code -/

/-- `PopCookie`, when it is valid: an offset in the buffer, and so on. -/
structure PopCookie where
  array : ℕ
  count : ℕ
  tail : ℕ
  deriving DecidableEq

/-- The buffer is memory from its start on.  The fields after `cookie` are only for the record:
the bytes that pushes have accepted, those that cookies have handed out, and the offsets that
were written. -/
structure RingBuffer where
  tailHard : ℕ
  headHard : ℕ
  tailSoft : ℕ
  headSoft : ℕ
  buffer : ℕ → UInt8
  capacity : ℕ
  cookie : Option PopCookie
  pushed : List UInt8
  popped : List UInt8
  written : List ℕ

/-- `Minimum`. -/
def minimum (a b : ℕ) : ℕ := if a < b then a else b

namespace RingBuffer

def initial (buffer : ℕ → UInt8) (capacity : ℕ) : RingBuffer where
  tailHard := 0
  headHard := 0
  tailSoft := 0
  headSoft := 0
  buffer := buffer
  capacity := capacity
  cookie := none
  pushed := []
  popped := []
  written := []

/-- `memcpy` to an offset in the buffer. -/
def copyIn (offset : ℕ) (elems : List UInt8) (r : RingBuffer) : RingBuffer :=
  { r with
    buffer := Circular.write r.buffer offset elems
    written := r.written ++ List.range' offset elems.length }

/-- `TryPush` once it has exchanged the soft head: so many bytes are copied. -/
def publish (elems : List UInt8) (newHS cpycnt : ℕ) (r : RingBuffer) : Option (ℕ × RingBuffer) :=
  if r.capacity = 0 ∨ elems.length < cpycnt then none
  else
    some (cpycnt, { r.copyIn (r.headHard % r.capacity) (elems.take cpycnt) with
      headSoft := newHS
      headHard := newHS })

/-- There is not enough space for the minimum. -/
def full (min : ℕ) (r : RingBuffer) : Prop :=
  Word.add r.tailHard r.capacity < Word.add r.headSoft min

instance (min : ℕ) (r : RingBuffer) : Decidable (r.full min) :=
  inferInstanceAs (Decidable (_ < _))

def tryPush (elems : List UInt8) (min : ℕ) (r : RingBuffer) : Option (ℕ × RingBuffer) :=
  if elems.length = 0 then some (0, r)
  else if r.full (if min > elems.length then elems.length else min) then some (0, r)
  else if r.headSoft ≠ r.headHard then some (0, r)
  else
    let newHS := minimum (Word.add r.tailHard r.capacity) (Word.add r.headSoft elems.length)
    r.publish elems newHS (Word.sub newHS r.headSoft)

/-- `TryBeginPop` with what it may take: so much that it neither passes the hard head nor the
end of the buffer. -/
def take (max min cpycnt : ℕ) (r : RingBuffer) : Option PopCookie × RingBuffer :=
  if cpycnt < min then (none, r)
  else
    let cpycnt := if cpycnt > max then max else cpycnt
    (some ⟨r.tailSoft % r.capacity, cpycnt, r.tailSoft⟩,
      { r with tailSoft := Word.add r.tailSoft cpycnt })

def tryBeginPop (max min : ℕ) (r : RingBuffer) : Option (Option PopCookie × RingBuffer) :=
  if min > r.capacity then some (none, r)
  else if r.headHard = r.tailSoft ∨ r.tailHard ≠ r.tailSoft then some (none, r)
  else if r.capacity = 0 then none
  else
    let bufEnd := minimum r.headHard
      (Word.sub (Word.add r.tailHard r.capacity) (r.tailSoft % r.capacity))
    some (r.take max min (Word.sub bufEnd r.tailSoft))

def endPop (c : PopCookie) (r : RingBuffer) : Option RingBuffer :=
  if r.tailHard ≠ c.tail then none
  else some { r with tailHard := Word.add c.tail c.count }

inductive Action where
  | tryPush (elems : List UInt8) (min : ℕ)
  | tryBeginPop (max min : ℕ)
  | endPop

/-- The bytes of an accepted push are queued. -/
def record (elems : List UInt8) (n : ℕ) (r : RingBuffer) : RingBuffer :=
  { r with pushed := r.pushed ++ elems.take n }

/-- The bytes of a cookie are handed out. -/
def handOut (c : Option PopCookie) (r : RingBuffer) : RingBuffer :=
  match c with
  | none => r
  | some c =>
      { r with cookie := some c, popped := r.popped ++ Circular.read r.buffer c.array c.count }

/-- The state after a call, if it comes back. -/
def perform (r : RingBuffer) : Action → Option RingBuffer
  | .tryPush elems min => (r.tryPush elems min).map fun x => x.2.record elems x.1
  | .tryBeginPop max min => (r.tryBeginPop max min).map fun x => x.2.handOut x.1
  | .endPop =>
      match r.cookie with
      | none => some r
      | some c => (r.endPop c).map fun r => { r with cookie := none }

/-- Pops do not overlap. -/
def Enabled (r : RingBuffer) : Action → Prop
  | .tryPush _ _ => True
  | .tryBeginPop _ _ => r.cookie = none
  | .endPop => r.cookie ≠ none

inductive Reachable (capacity : ℕ) (kind : RingBuffer → Action → Prop) : RingBuffer → Prop
  | start (buffer : ℕ → UInt8) : Reachable capacity kind (initial buffer capacity)
  | step {r r' : RingBuffer} (a : Action) : Reachable capacity kind r → r.Enabled a → kind r a →
      r.perform a = some r' → Reachable capacity kind r'

/-! ## What is asked -/

/-- What is handed out is the start of what was accepted, and stays in the buffer until the
cookie is returned; nothing is accessed outside of the buffer, which holds all that is queued. -/
structure Queue (r : RingBuffer) : Prop where
  popped : r.popped <+: r.pushed
  lengths : r.pushed.length = r.headHard ∧ r.popped.length = r.tailSoft
  queued : r.headHard ≤ r.tailHard + r.capacity
  cookie : ∀ c, r.cookie = some c → c.array + c.count ≤ r.capacity ∧
    Circular.read r.buffer c.array c.count <:+ r.popped
  written : ∀ o ∈ r.written, o < r.capacity

/-- A call comes back; a push is refused or takes at least the minimum. -/
def ComesBack (r : RingBuffer) : Action → Prop
  | .tryPush elems min => ∃ n r', r.tryPush elems min = some (n, r') ∧
      (n = 0 ∨ minimum min elems.length ≤ n)
  | a => ∃ r', r.perform a = some r'

/-! ## The condition -/

/-- A push is refused for lack of space, or its bytes end before the end of the buffer and the
positions stay below `2 ^ 64`, as they do for a pop. -/
def Fit (r : RingBuffer) : Action → Prop
  | .tryPush elems min => elems.length = 0 ∨ r.full (minimum min elems.length) ∨
      0 < r.capacity ∧ r.headSoft + elems.length < 2 ^ 64 ∧
        r.headSoft % r.capacity + minimum elems.length (r.tailHard + r.capacity - r.headSoft) ≤
          r.capacity
  | .tryBeginPop _ _ => r.headHard = r.tailSoft ∨
      r.tailHard + (r.capacity - r.tailSoft % r.capacity) < 2 ^ 64
  | .endPop => True

/-! ## The invariant -/

structure Inv (r : RingBuffer) : Prop where
  size : r.capacity < 2 ^ 64
  soft : r.headSoft = r.headHard
  order : r.tailHard ≤ r.tailSoft ∧ r.tailSoft ≤ r.headHard
  queued : r.headHard ≤ r.tailHard + r.capacity
  small : r.headHard < 2 ^ 64
  pushed : r.pushed.length = r.headHard
  popped : r.popped = r.pushed.take r.tailSoft
  stores : Circular.Stores r.buffer r.capacity r.tailHard r.headHard r.pushed
  idle : r.cookie = none → r.tailSoft = r.tailHard
  busy : ∀ c, r.cookie = some c → c.tail = r.tailHard ∧ c.array = r.tailHard % r.capacity ∧
    r.tailSoft = r.tailHard + c.count ∧ c.array + c.count ≤ r.capacity
  written : ∀ o ∈ r.written, o < r.capacity

variable {r r' : RingBuffer} {capacity : ℕ}

theorem inv_initial (buffer : ℕ → UInt8) (h : capacity < 2 ^ 64) :
    (initial buffer capacity).Inv := by
  refine ⟨h, rfl, ⟨le_rfl, le_rfl⟩, Nat.zero_le _, Nat.two_pow_pos 64, rfl, rfl, ?_, fun _ => rfl,
    ?_, ?_⟩
  · intro p _ hp
    cases hp
  · intro c hc
    cases hc
  · intro o ho
    cases ho

theorem Inv.toQueue (h : r.Inv) : r.Queue := by
  have hpopped := h.popped
  refine ⟨?_, ⟨h.pushed, ?_⟩, h.queued, ?_, h.written⟩
  · rw [hpopped]
    exact List.take_prefix _ _
  · rw [hpopped, List.length_take, h.pushed]
    exact Nat.min_eq_left h.order.2
  · intro c hc
    obtain ⟨-, harray, htail, hfit⟩ := h.busy c hc
    refine ⟨hfit, ?_⟩
    rw [harray] at hfit ⊢
    rw [h.stores.read le_rfl (by have := h.order; omega) hfit, hpopped, htail, List.take_add]
    exact List.suffix_append _ _

/-! ### Pushes -/

theorem minimum_le_left (a b : ℕ) : minimum a b ≤ a := by
  unfold minimum
  split <;> omega

theorem minimum_le_right (a b : ℕ) : minimum a b ≤ b := by
  unfold minimum
  split <;> omega

theorem le_minimum {a b c : ℕ} (hb : a ≤ b) (hc : a ≤ c) : a ≤ minimum b c := by
  unfold minimum
  split <;> omega

/-- Two ends, seen from a start before both. -/
theorem minimum_eq_add {b c : ℕ} (d : ℕ) (h : c ≤ b) :
    minimum b (c + d) = c + minimum d (b - c) := by
  unfold minimum
  split <;> split <;> omega

theorem clamp_eq (min count : ℕ) : (if min > count then count else min) = minimum min count := by
  unfold minimum
  split <;> split <;> omega

/-- With space for the minimum the end of the buffer does not wrap. -/
theorem Inv.not_full (h : r.Inv) {min : ℕ} (hfull : ¬ r.full min)
    (hsmall : r.headSoft + min < 2 ^ 64) :
    r.tailHard + r.capacity < 2 ^ 64 ∧ r.headSoft + min ≤ r.tailHard + r.capacity := by
  unfold full at hfull
  rw [Word.add_of_lt hsmall] at hfull
  have hsize := h.size
  have horder := h.order
  have hsoft := h.soft
  have hlt := h.small
  unfold Word.add at hfull
  omega

theorem Inv.record_zero (h : r.Inv) (elems : List UInt8) : (r.record elems 0).Inv := by
  have heq : r.record elems 0 = r := by
    unfold record
    rw [List.take_zero, List.append_nil]
  rw [heq]
  exact h

/-- The bytes fit between the hard head and the end of the buffer. -/
theorem Inv.publish (h : r.Inv) {elems : List UInt8} {n : ℕ} (hn : n ≤ elems.length)
    (hpos : 0 < r.capacity) (hsmall : r.headHard + n < 2 ^ 64)
    (hroom : r.headHard + n ≤ r.tailHard + r.capacity)
    (hfit : r.headHard % r.capacity + n ≤ r.capacity) :
    ∃ r', r.publish elems (r.headHard + n) n = some (n, r') ∧ (r'.record elems n).Inv := by
  have hlength : (elems.take n).length = n := by
    rw [List.length_take]
    exact Nat.min_eq_left hn
  have hpushed := h.pushed
  refine ⟨_, if_neg (by omega), ?_⟩
  refine ⟨h.size, rfl, ⟨h.order.1, ?_⟩, hroom, hsmall, ?_, ?_, ?_, h.idle, h.busy, ?_⟩
  · exact Nat.le_trans h.order.2 (Nat.le_add_right _ _)
  · show (r.pushed ++ elems.take n).length = r.headHard + n
    rw [List.length_append, hlength, hpushed]
  · show r.popped = (r.pushed ++ elems.take n).take r.tailSoft
    rw [List.take_append_of_le_length (by have := h.order; omega)]
    exact h.popped
  · have hstores := h.stores
    rw [← hpushed] at hstores
    have hfit' : r.pushed.length % r.capacity + (elems.take n).length ≤ r.capacity := by
      rw [hlength, hpushed]
      exact hfit
    have happend := hstores.append hfit' (by rw [hlength, hpushed]; exact hroom)
    rw [List.length_append, hlength, hpushed] at happend
    exact happend
  · intro o ho
    cases List.mem_append.mp ho with
    | inl ho => exact h.written o ho
    | inr ho =>
        rw [hlength] at ho
        have hbound := List.mem_range'_1.mp ho
        show o < r.capacity
        omega

/-- What `TryPush` does: it refuses, or accepts at least the minimum. -/
theorem Inv.tryPush (h : r.Inv) {elems : List UInt8} {min : ℕ} (hfit : r.Fit (.tryPush elems min)) :
    ∃ n r', r.tryPush elems min = some (n, r') ∧ (n = 0 ∨ minimum min elems.length ≤ n) ∧
      (r'.record elems n).Inv := by
  unfold RingBuffer.tryPush
  rw [clamp_eq]
  split
  next => exact ⟨0, r, rfl, Or.inl rfl, h.record_zero elems⟩
  next hcount =>
    split
    next => exact ⟨0, r, rfl, Or.inl rfl, h.record_zero elems⟩
    next hfull =>
      rw [if_neg (not_not.mpr h.soft)]
      obtain hzero | hfull' | ⟨hpos, hsmall, hend⟩ := hfit
      · exact (hcount hzero).elim
      · exact (hfull hfull').elim
      have hmin : minimum min elems.length ≤ elems.length := minimum_le_right _ _
      obtain ⟨hsize, hroom⟩ := h.not_full hfull (by omega)
      have hsoft := h.soft
      have hqueued := h.queued
      rw [hsoft] at hsmall hend hroom
      have hnew := minimum_eq_add elems.length hqueued
      have hn := minimum_le_left elems.length (r.tailHard + r.capacity - r.headHard)
      have hn' := minimum_le_right elems.length (r.tailHard + r.capacity - r.headHard)
      rw [hsoft, Word.add_of_lt hsize, Word.add_of_lt hsmall, hnew]
      dsimp only
      rw [Word.sub_of_le (by omega) (Nat.le_add_right _ _), Nat.add_sub_cancel_left]
      obtain ⟨r', hpublish, hinv⟩ := h.publish hn hpos (by omega) (by omega) hend
      exact ⟨_, r', hpublish, Or.inr (le_minimum hmin (by omega)), hinv⟩

/-! ### Pops -/

/-- What `TryBeginPop` takes is in the buffer, before its end and before the hard head. -/
theorem Inv.take (h : r.Inv) (hcookie : r.cookie = none) {max min n : ℕ}
    (hn : r.tailHard + n ≤ r.headHard) (hfit : r.tailHard % r.capacity + n ≤ r.capacity) :
    ((r.take max min n).2.handOut (r.take max min n).1).Inv := by
  have hidle := h.idle hcookie
  have hsmall := h.small
  unfold RingBuffer.take
  split
  next => exact h
  next =>
    dsimp only
    generalize hcount : (if n > max then max else n) = count
    have hle : count ≤ n := by
      rw [← hcount]
      split <;> omega
    rw [Word.add_of_lt (by omega), hidle]
    refine ⟨h.size, h.soft, ⟨Nat.le_add_right _ _, ?_⟩, h.queued, h.small, h.pushed, ?_, h.stores,
      ?_, ?_, h.written⟩
    · show r.tailHard + count ≤ r.headHard
      omega
    · show r.popped ++ Circular.read r.buffer (r.tailHard % r.capacity) count =
        r.pushed.take (r.tailHard + count)
      rw [h.stores.read le_rfl (by omega) (by omega), h.popped, hidle, ← List.take_add]
    · intro hnone
      cases hnone
    · intro c hc
      cases hc
      refine ⟨rfl, rfl, rfl, ?_⟩
      show r.tailHard % r.capacity + count ≤ r.capacity
      omega

theorem Inv.tryBeginPop (h : r.Inv) (hcookie : r.cookie = none) {max min : ℕ}
    (hfit : r.Fit (.tryBeginPop max min)) :
    ∃ c r', r.tryBeginPop max min = some (c, r') ∧ (r'.handOut c).Inv := by
  have hidle := h.idle hcookie
  unfold RingBuffer.tryBeginPop
  split
  next => exact ⟨none, r, rfl, h⟩
  next =>
    split
    next => exact ⟨none, r, rfl, h⟩
    next hempty =>
      obtain ⟨hne, heq⟩ := not_or.mp hempty
      have hsmall := h.small
      have hqueued := h.queued
      have horder := h.order
      have hsize := h.size
      have hpos : 0 < r.capacity := by omega
      have hlt := Nat.mod_lt r.tailHard hpos
      obtain hzero | hwrap := hfit
      · exact (hne hzero).elim
      rw [if_neg (Nat.ne_of_gt hpos)]
      rw [hidle] at hwrap ⊢
      have hend : Word.sub (Word.add r.tailHard r.capacity) (r.tailHard % r.capacity) =
          r.tailHard + (r.capacity - r.tailHard % r.capacity) := by
        have hmod : r.tailHard % r.capacity < 2 ^ 64 := by omega
        generalize r.tailHard % r.capacity = rel at hlt hwrap hmod ⊢
        unfold Word.sub Word.add
        omega
      have hbuf := minimum_eq_add (r.capacity - r.tailHard % r.capacity)
        (show r.tailHard ≤ r.headHard by omega)
      have hn := minimum_le_left (r.capacity - r.tailHard % r.capacity) (r.headHard - r.tailHard)
      have hn' := minimum_le_right (r.capacity - r.tailHard % r.capacity) (r.headHard - r.tailHard)
      refine ⟨_, _, rfl, ?_⟩
      rw [hend, hbuf, Word.sub_of_le (by omega) (Nat.le_add_right _ _), Nat.add_sub_cancel_left]
      exact h.take hcookie (by omega) (by omega)

theorem Inv.endPop (h : r.Inv) {c : PopCookie} (hcookie : r.cookie = some c) :
    ∃ r', r.endPop c = some r' ∧ ({ r' with cookie := none } : RingBuffer).Inv := by
  obtain ⟨htail, harray, hsoft, hfit⟩ := h.busy c hcookie
  have horder := h.order
  have hsmall := h.small
  have hqueued := h.queued
  have hadd : Word.add c.tail c.count = r.tailSoft := by
    rw [htail, hsoft]
    exact Word.add_of_lt (by omega)
  refine ⟨_, if_neg (not_not.mpr htail.symm), ?_⟩
  rw [hadd]
  refine ⟨h.size, h.soft, ⟨le_rfl, horder.2⟩, ?_, h.small, h.pushed, h.popped,
    h.stores.mono horder.1, fun _ => rfl, ?_, h.written⟩
  · show r.headHard ≤ r.tailSoft + r.capacity
    omega
  · intro c' hc'
    cases hc'

/-! ## Runs -/

theorem Inv.step (h : r.Inv) (a : Action) (ha : r.Enabled a) (hfit : r.Fit a) :
    r.ComesBack a ∧ ∃ r', r.perform a = some r' ∧ r'.Inv := by
  cases a with
  | tryPush elems min =>
      obtain ⟨n, r', hpush, hn, hinv⟩ := h.tryPush hfit
      refine ⟨⟨n, r', hpush, hn⟩, r'.record elems n, ?_, hinv⟩
      show (r.tryPush elems min).map _ = _
      rw [hpush]
      rfl
  | tryBeginPop max min =>
      obtain ⟨c, r', hpop, hinv⟩ := h.tryBeginPop ha hfit
      have hperform : r.perform (.tryBeginPop max min) = some (r'.handOut c) := by
        show (r.tryBeginPop max min).map _ = _
        rw [hpop]
        rfl
      exact ⟨⟨_, hperform⟩, _, hperform, hinv⟩
  | endPop =>
      obtain ⟨c, hc⟩ := Option.ne_none_iff_exists'.mp ha
      obtain ⟨r', hend, hinv⟩ := h.endPop hc
      have hperform : r.perform .endPop = some { r' with cookie := none } := by
        unfold perform
        rw [hc]
        dsimp only
        rw [hend]
        rfl
      exact ⟨⟨_, hperform⟩, _, hperform, hinv⟩

theorem Reachable.inv (hcapacity : capacity < 2 ^ 64) (h : Reachable capacity Fit r) : r.Inv := by
  induction h with
  | start buffer => exact inv_initial buffer hcapacity
  | step a _ ha hfit hperform ih =>
      obtain ⟨-, r', heq, hinv⟩ := ih.step a ha hfit
      rw [hperform] at heq
      cases heq
      exact hinv

/-- In a run whose calls meet the condition the buffer is a queue, and every call comes back. -/
theorem Reachable.queue (hcapacity : capacity < 2 ^ 64) (h : Reachable capacity Fit r) :
    r.Queue ∧ ∀ a, r.Enabled a → r.Fit a → r.ComesBack a :=
  ⟨(h.inv hcapacity).toQueue, fun a ha hfit => ((h.inv hcapacity).step a ha hfit).1⟩

/-- Three bytes go through a buffer of four, and a fourth one up to its end. -/
theorem Reachable.queue_four : ∃ r : RingBuffer, r.pushed = [1, 2, 3, 4] ∧ r.popped = [1, 2, 3] ∧
    r.Queue ∧ ∀ a, r.Enabled a → r.Fit a → r.ComesBack a := by
  have h : Reachable 4 Fit (initial (fun _ => 0) 4) := .start _
  have h := h.step (.tryPush [1, 2, 3] 1) trivial (Or.inr (Or.inr (by decide))) rfl
  have h := h.step (.tryBeginPop 3 1) rfl (Or.inr (by decide)) rfl
  have h := h.step .endPop nofun trivial rfl
  have h := h.step (.tryPush [4] 1) trivial (Or.inr (Or.inr (by decide))) rfl
  exact ⟨_, rfl, rfl, Reachable.queue (by decide) h⟩

/-- A push that goes past the end writes behind the buffer. -/
theorem Reachable.straddle : ¬ ∀ (capacity : ℕ) (r : RingBuffer), capacity < 2 ^ 64 →
    Reachable capacity (fun _ _ => True) r → r.Queue := by
  intro hclaim
  have h : Reachable 4 (fun _ _ => True) (initial (fun _ => 0) 4) := .start _
  have h := h.step (.tryPush [1, 2, 3] 1) trivial trivial rfl
  have h := h.step (.tryBeginPop 3 1) rfl trivial rfl
  have h := h.step .endPop nofun trivial rfl
  have h := h.step (.tryPush [4, 5] 1) trivial trivial rfl
  have hwritten := (hclaim 4 _ (by decide) h).written 4
  exact absurd (hwritten (by decide)) (by decide)

end RingBuffer

end Beelzebub.Utils
