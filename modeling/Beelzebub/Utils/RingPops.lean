import Beelzebub.Utils.RingBuffer

/-!
# The three ways to begin a pop

All of them take what is queued behind the soft tail, up to a maximum.  `TryBeginPop` stops at the
end of the buffer.  `BeginPop` and `WaitBeginPop` do not, and what they hand out lies in the buffer
exactly if the bytes that they take do not go around it.
-/

namespace Beelzebub.Utils

namespace RingBuffer

/-! ## The code -/

/-- `BeginPop`.  The division by the capacity comes last. -/
def beginPop (max min : ℕ) (r : RingBuffer) : Option (Option PopCookie × RingBuffer) :=
  if min > r.capacity then some (none, r)
  else if r.headHard = r.tailSoft then some (none, r)
  else if r.capacity = 0 then none
  else
    let bufEnd := minimum r.headHard (Word.add r.tailHard r.capacity)
    some (r.take max min (Word.sub bufEnd r.tailSoft))

/-- The loop of `WaitBeginPop`, through what its rounds find; it still waits when they are over. -/
def waitLoop (max min : ℕ) : ℕ → List RingBuffer → Option (Option PopCookie × RingBuffer)
  | _, [] => none
  | myTS, r :: rounds =>
      if r.headHard = myTS then waitLoop max min myTS rounds
      else
        let bufEnd := minimum r.headHard (Word.add r.tailHard r.capacity)
        let cpycnt := Word.sub bufEnd myTS
        if cpycnt < min then waitLoop max min myTS rounds
        else if r.tailSoft ≠ myTS then waitLoop max min r.tailSoft rounds
        else some (r.take max min cpycnt)

/-- `WaitBeginPop`, which begins in one state and goes on through others. -/
def waitBeginPop (max min : ℕ) (r : RingBuffer) (rounds : List RingBuffer) :
    Option (Option PopCookie × RingBuffer) :=
  if min > r.capacity then some (none, r) else waitLoop max min r.tailSoft rounds

/-! ## What is asked -/

/-- The positions of a state that the buffer can be in. -/
structure Ordered (r : RingBuffer) : Prop where
  size : r.capacity < 2 ^ 64
  word : r.headHard < 2 ^ 64
  tails : r.tailHard ≤ r.tailSoft
  soft : r.tailSoft ≤ r.headHard
  queued : r.headHard ≤ r.tailHard + r.capacity

/-- A cookie that is taken in the state. -/
structure HandsOut (max min : ℕ) (r : RingBuffer) (c : PopCookie) : Prop where
  most : c.count ≤ max
  least : minimum min max ≤ c.count
  start : c.tail = r.tailSoft ∧ c.array = r.tailSoft % r.capacity
  inside : c.array + c.count ≤ r.capacity

/-- The valid cookies of a call. -/
def Hands (max min : ℕ) (r : RingBuffer) (call : Option (Option PopCookie × RingBuffer)) : Prop :=
  ∀ c r', call = some (some c, r') → r.HandsOut max min c

/-! ## The condition -/

/-- The bytes behind the soft tail.  Where the end of the space does not fit in a word, it is the
space that counts. -/
def available (r : RingBuffer) : ℕ :=
  if r.tailHard + r.capacity < 2 ^ 64 then r.headHard - r.tailSoft
  else r.tailHard + r.capacity - r.tailSoft

/-- There is nothing to take, or too little, or it ends within the buffer. -/
def Clear (max min : ℕ) (r : RingBuffer) : Prop :=
  r.headHard = r.tailSoft ∨ r.available < min ∨
    r.tailSoft % r.capacity + minimum max r.available ≤ r.capacity

variable {r r' : RingBuffer} {max min n : ℕ} {c : PopCookie}

/-! ## What is taken -/

theorem minimum_cases (a b : ℕ) : minimum a b = a ∧ a ≤ b ∨ minimum a b = b ∧ b ≤ a := by
  unfold minimum
  split
  next h => exact .inl ⟨rfl, Nat.le_of_lt h⟩
  next h => exact .inr ⟨rfl, Nat.not_lt.mp h⟩

theorem Ordered.capacity_pos (h : r.Ordered) (hne : r.headHard ≠ r.tailSoft) : 0 < r.capacity := by
  have htails := h.tails
  have hsoft := h.soft
  have hqueued := h.queued
  omega

theorem Ordered.available_le (h : r.Ordered) : r.available ≤ r.capacity := by
  have htails := h.tails
  have hqueued := h.queued
  unfold available
  split
  · omega
  · omega

/-- The count that `BeginPop` and `WaitBeginPop` begin with. -/
theorem Ordered.count_eq (h : r.Ordered) :
    Word.sub (minimum r.headHard (Word.add r.tailHard r.capacity)) r.tailSoft = r.available := by
  obtain ⟨hsize, hword, htails, hsoft, hqueued⟩ := h
  unfold available
  split
  next hfit =>
    rw [Word.add_of_lt hfit]
    rcases minimum_cases r.headHard (r.tailHard + r.capacity) with ⟨hmin, -⟩ | ⟨hmin, hle⟩
    · rw [hmin, Word.sub_of_le hword hsoft]
    · rw [hmin, Nat.le_antisymm hle hqueued, Word.sub_of_le hword hsoft]
  next hwrap =>
    have hadd : Word.add r.tailHard r.capacity = r.tailHard + r.capacity - 2 ^ 64 := by
      unfold Word.add
      omega
    have hlow : r.tailHard + r.capacity - 2 ^ 64 < r.tailSoft := by omega
    have hmin : minimum r.headHard (r.tailHard + r.capacity - 2 ^ 64) =
        r.tailHard + r.capacity - 2 ^ 64 := if_neg (by omega)
    rw [hadd, hmin, Word.sub_of_lt (Nat.lt_of_le_of_lt hsoft hword) hlow]
    omega

/-- `TryBeginPop` stops at the end of the buffer, also where the end of the space wraps. -/
theorem Ordered.tryCount_le (h : r.Ordered) (hne : r.headHard ≠ r.tailSoft)
    (htail : r.tailHard = r.tailSoft) : r.tailSoft % r.capacity +
      Word.sub (minimum r.headHard (Word.sub (Word.add r.tailHard r.capacity)
        (r.tailSoft % r.capacity))) r.tailSoft ≤ r.capacity := by
  have hpos := h.capacity_pos hne
  obtain ⟨hsize, hword, -, hsoft, hqueued⟩ := h
  have hrel := Nat.mod_lt r.tailSoft hpos
  rw [htail]
  generalize r.tailSoft % r.capacity = rel at hrel
  generalize hend : Word.sub (Word.add r.tailSoft r.capacity) rel = last
  have hlast : last = (r.tailSoft + (r.capacity - rel)) % 2 ^ 64 := by
    rw [← hend]
    unfold Word.sub Word.add
    omega
  rcases Nat.lt_or_ge (r.tailSoft + (r.capacity - rel)) (2 ^ 64) with hfit | hwrap
  · rw [Nat.mod_eq_of_lt hfit] at hlast
    rcases minimum_cases r.headHard last with ⟨hmin, hle⟩ | ⟨hmin, hle⟩
    · rw [hmin, Word.sub_of_le hword hsoft]
      omega
    · rw [hmin, Word.sub_of_le (by omega) (by omega)]
      omega
  · have hlow : last = r.tailSoft + (r.capacity - rel) - 2 ^ 64 := by omega
    have hmin : minimum r.headHard last = last := if_neg (by omega)
    rw [hmin, Word.sub_of_lt (by omega) (by omega)]
    omega

/-- What `take` makes of a count. -/
theorem take_eq (r : RingBuffer) (max : ℕ) (h : min ≤ n) : ∃ r', r.take max min n =
    (some ⟨r.tailSoft % r.capacity, minimum max n, r.tailSoft⟩, r') := by
  unfold take
  rw [if_neg (Nat.not_lt.mpr h)]
  exact ⟨_, rfl⟩

theorem take_none (h : n < min) : r.take max min n = (none, r) := if_pos h

/-- A cookie for enough bytes is right if they end within the buffer. -/
theorem handsOut_iff (h : min ≤ n) :
    r.HandsOut max min ⟨r.tailSoft % r.capacity, minimum max n, r.tailSoft⟩ ↔
      r.tailSoft % r.capacity + minimum max n ≤ r.capacity := by
  constructor
  · exact HandsOut.inside
  · intro hinside
    refine ⟨?_, ?_, ⟨rfl, rfl⟩, hinside⟩
    · show minimum max n ≤ max
      rcases minimum_cases max n with ⟨heq, -⟩ | ⟨heq, hle⟩
      · exact Nat.le_of_eq heq
      · rw [heq]
        exact hle
    · show minimum min max ≤ minimum max n
      rcases minimum_cases max n with ⟨heq, -⟩ | ⟨heq, -⟩
      · rcases minimum_cases min max with ⟨heq', hle⟩ | ⟨heq', -⟩
        · rw [heq, heq']
          exact hle
        · rw [heq, heq']
      · rcases minimum_cases min max with ⟨heq', -⟩ | ⟨heq', hle⟩
        · rw [heq, heq']
          exact h
        · rw [heq, heq']
          exact Nat.le_trans hle h

/-! ## The calls -/

theorem Ordered.tryBeginPop_hands (h : r.Ordered) (max min : ℕ) :
    r.Hands max min (r.tryBeginPop max min) := by
  intro c r' hcall
  unfold tryBeginPop at hcall
  split at hcall
  · cases hcall
  split at hcall
  · cases hcall
  next hne =>
    rw [not_or, not_not] at hne
    split at hcall
    · cases hcall
    · have hle := h.tryCount_le hne.1 hne.2
      have htake := Option.some.inj hcall
      generalize Word.sub (minimum r.headHard (Word.sub (Word.add r.tailHard r.capacity)
        (r.tailSoft % r.capacity))) r.tailSoft = n at hle htake
      rcases Nat.lt_or_ge n min with hlt | hge
      · rw [take_none hlt] at htake
        cases htake
      · obtain ⟨r₁, heq⟩ := take_eq r max hge
        rw [heq] at htake
        cases htake
        refine (handsOut_iff hge).mpr (Nat.le_trans (Nat.add_le_add_left ?_ _) hle)
        rcases minimum_cases max n with ⟨hmin, hmax⟩ | ⟨hmin, -⟩
        · rw [hmin]
          exact hmax
        · exact Nat.le_of_eq hmin

/-- What `BeginPop` returns, when there is something to take. -/
theorem Ordered.beginPop_eq (h : r.Ordered) (hne : r.headHard ≠ r.tailSoft)
    (henough : min ≤ r.available) : r.beginPop max min = some (r.take max min r.available) := by
  unfold beginPop
  rw [if_neg (Nat.not_lt.mpr (Nat.le_trans henough h.available_le)), if_neg hne,
    if_neg (Nat.ne_of_gt (h.capacity_pos hne))]
  dsimp only
  rw [h.count_eq]

theorem Ordered.beginPop_none (h : r.Ordered)
    (hnone : r.headHard = r.tailSoft ∨ r.available < min) :
    r.beginPop max min = some (none, r) := by
  unfold beginPop
  split
  · rfl
  split
  · rfl
  next hne =>
    rw [if_neg (Nat.ne_of_gt (h.capacity_pos hne))]
    dsimp only
    rw [h.count_eq]
    exact congrArg some (take_none (hnone.resolve_left hne))

theorem clear_iff (hne : r.headHard ≠ r.tailSoft) (henough : min ≤ r.available) :
    r.Clear max min ↔ r.tailSoft % r.capacity + minimum max r.available ≤ r.capacity := by
  unfold Clear
  rw [or_iff_right hne, or_iff_right (Nat.not_lt.mpr henough)]

theorem Ordered.beginPop_iff (h : r.Ordered) (max min : ℕ) :
    r.Hands max min (r.beginPop max min) ↔ r.Clear max min := by
  by_cases hnone : r.headHard = r.tailSoft ∨ r.available < min
  · refine iff_of_true ?_ (or_assoc.mp (.inl hnone))
    intro c r' hcall
    rw [h.beginPop_none hnone] at hcall
    cases hcall
  · rw [not_or, Nat.not_lt] at hnone
    obtain ⟨hne, henough⟩ := hnone
    obtain ⟨r₁, htake⟩ := take_eq r max henough
    rw [h.beginPop_eq hne henough, htake, clear_iff hne henough, ← handsOut_iff henough]
    constructor
    · exact fun hands => hands _ _ rfl
    · intro hout c r' hcall
      cases hcall
      exact hout

theorem waitLoop_cons (myTS : ℕ) (r : RingBuffer) (rounds : List RingBuffer) :
    waitLoop max min myTS (r :: rounds) =
      if r.headHard = myTS then waitLoop max min myTS rounds
      else if Word.sub (minimum r.headHard (Word.add r.tailHard r.capacity)) myTS < min then
        waitLoop max min myTS rounds
      else if r.tailSoft ≠ myTS then waitLoop max min r.tailSoft rounds
      else some (r.take max min
        (Word.sub (minimum r.headHard (Word.add r.tailHard r.capacity)) myTS)) := rfl

/-- The rounds before the last one leave the loop with some position. -/
theorem waitLoop_append {rounds : List RingBuffer} {myTS : ℕ}
    (hwaits : waitLoop max min myTS rounds = none) (rest : List RingBuffer) :
    ∃ myTS', waitLoop max min myTS (rounds ++ rest) = waitLoop max min myTS' rest := by
  induction rounds generalizing myTS with
  | nil => exact ⟨myTS, rfl⟩
  | cons r rounds ih =>
      rw [waitLoop_cons] at hwaits
      rw [List.cons_append, waitLoop_cons]
      split at hwaits
      next heq =>
        rw [if_pos heq]
        exact ih hwaits
      next hne =>
        rw [if_neg hne]
        split at hwaits
        next hlt =>
          rw [if_pos hlt]
          exact ih hwaits
        next hge =>
          rw [if_neg hge]
          split at hwaits
          next hmoved =>
            rw [if_pos hmoved]
            exact ih hwaits
          next => cases hwaits

/-- A round that returns has found the soft tail where it was. -/
theorem Ordered.waitLoop_single (h : r.Ordered) {myTS : ℕ}
    (hcall : waitLoop max min myTS [r] = some (some c, r')) :
    r.headHard ≠ r.tailSoft ∧ min ≤ r.available ∧
      c = ⟨r.tailSoft % r.capacity, minimum max r.available, r.tailSoft⟩ := by
  rw [waitLoop_cons] at hcall
  split at hcall
  · cases hcall
  next hne =>
    split at hcall
    · cases hcall
    next hge =>
      split at hcall
      · cases hcall
      next hsame =>
        obtain rfl := not_not.mp hsame
        rw [h.count_eq] at hge hcall
        obtain ⟨r₁, htake⟩ := take_eq r max (Nat.not_lt.mp hge)
        rw [htake] at hcall
        cases hcall
        exact ⟨hne, Nat.not_lt.mp hge, rfl⟩

/-- Without a disturbance `WaitBeginPop` returns the same cookies as `BeginPop`. -/
theorem Ordered.waitBeginPop_iff (h : r.Ordered) (max min : ℕ) :
    r.Hands max min (r.waitBeginPop max min [r]) ↔ r.Clear max min := by
  rw [← h.beginPop_iff]
  by_cases hnone : r.headHard = r.tailSoft ∨ r.available < min
  · refine iff_of_true ?_ ?_
    · intro c r' hcall
      unfold waitBeginPop at hcall
      split at hcall
      · cases hcall
      · obtain ⟨hne, henough, -⟩ := h.waitLoop_single hcall
        exact absurd hnone (not_or.mpr ⟨hne, Nat.not_lt.mpr henough⟩)
    · intro c r' hcall
      rw [h.beginPop_none hnone] at hcall
      cases hcall
  · rw [not_or, Nat.not_lt] at hnone
    obtain ⟨hne, henough⟩ := hnone
    have hwait : r.waitBeginPop max min [r] = r.beginPop max min := by
      rw [h.beginPop_eq hne henough]
      unfold waitBeginPop
      rw [if_neg (Nat.not_lt.mpr (Nat.le_trans henough h.available_le)), waitLoop_cons, if_neg hne,
        h.count_eq, if_neg (Nat.not_lt.mpr henough), if_neg (not_not.mpr rfl)]
    rw [hwait]

/-- In every state `TryBeginPop` hands out bytes in the buffer, and `BeginPop` and `WaitBeginPop` do
if and only if the condition holds; for `WaitBeginPop`, in the state of its last round. -/
theorem pops_inside (h : r.Ordered) (max min : ℕ) :
    r.Hands max min (r.tryBeginPop max min) ∧
    (r.Hands max min (r.beginPop max min) ↔ r.Clear max min) ∧
    (r.Hands max min (r.waitBeginPop max min [r]) ↔ r.Clear max min) ∧
    ∀ (r₀ : RingBuffer) (rounds : List RingBuffer) (c : PopCookie) (r' : RingBuffer),
      r₀.waitBeginPop max min rounds = none →
      r₀.waitBeginPop max min (rounds ++ [r]) = some (some c, r') →
      (r.HandsOut max min c ↔ r.Clear max min) := by
  refine ⟨h.tryBeginPop_hands max min, h.beginPop_iff max min, h.waitBeginPop_iff max min, ?_⟩
  intro r₀ rounds c r' hwaits hcall
  unfold waitBeginPop at hwaits hcall
  split at hwaits
  · cases hwaits
  next hsize =>
    rw [if_neg hsize] at hcall
    obtain ⟨myTS, hlast⟩ := waitLoop_append hwaits [r]
    rw [hlast] at hcall
    obtain ⟨hne, henough, rfl⟩ := h.waitLoop_single hcall
    rw [handsOut_iff henough, clear_iff hne henough]

/-- The states of the buffer, one call at a time, are ordered. -/
theorem Inv.ordered (h : r.Inv) : r.Ordered where
  size := h.size
  word := h.small
  tails := h.order.1
  soft := h.order.2
  queued := h.queued

/-- Six bytes have gone into a buffer of four, and two of them out. -/
def sixBytes : RingBuffer where
  tailHard := 2
  headHard := 6
  tailSoft := 2
  headSoft := 6
  buffer := Circular.write (Circular.write (fun _ => 0) 0 [1, 2, 3, 4]) 0 [5, 6]
  capacity := 4
  cookie := none
  pushed := [1, 2, 3, 4, 5, 6]
  popped := [1, 2]
  written := [0, 1, 2, 3, 0, 1]

theorem reachable_sixBytes : Reachable 4 Fit sixBytes := by
  have h : Reachable 4 Fit (initial (fun _ => 0) 4) := .start _
  have h := h.step (.tryPush [1, 2, 3, 4] 1) trivial (.inr (.inr (by decide))) rfl
  have h := h.step (.tryBeginPop 2 1) rfl (.inr (by decide)) rfl
  have h := h.step .endPop nofun trivial rfl
  have h := h.step (.tryPush [5, 6] 1) trivial (.inr (.inr (by decide))) rfl
  exact h

/-- The two bytes up to the end of the buffer. -/
theorem pops_inside_sixBytes : sixBytes.Hands 2 1 (sixBytes.tryBeginPop 2 1) ∧
    sixBytes.Hands 2 1 (sixBytes.beginPop 2 1) ∧
    sixBytes.Hands 2 1 (sixBytes.waitBeginPop 2 1 [sixBytes]) := by
  have hordered := (reachable_sixBytes.inv (by decide)).ordered
  obtain ⟨htry, hbegin, hwait, -⟩ := pops_inside hordered 2 1
  have hclear : sixBytes.Clear 2 1 := .inr (.inr (by decide))
  exact ⟨htry, hbegin.mpr hclear, hwait.mpr hclear⟩

/-- All four bytes go around the buffer. -/
theorem not_pops_inside : ¬ ∀ (r : RingBuffer) (max min : ℕ), Reachable 4 Fit r →
    r.Hands max min (r.beginPop max min) := by
  intro h
  have hinside := (h sixBytes 4 1 reachable_sixBytes _ _ rfl).inside
  exact absurd hinside (by decide)

end RingBuffer

end Beelzebub.Utils
