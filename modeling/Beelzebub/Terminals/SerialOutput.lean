import Mathlib.Data.List.Chain
import Mathlib.Data.List.Range
import Mathlib.Tactic.Common

/-!
# Bytes to a serial port

`WriteBytes` puts bytes on the queue of the port until all of them were taken, or sends them at
once, never more than the port takes before it is empty again.  On the queue it moves the source
pointer by as much as was taken, and then adds as much to it again for the next attempt.

A byte of the source is its address.
-/

namespace Beelzebub.SerialOutput

/-! ## The code -/

/-- What a round of the queue loop meets with: how much `TryPush` takes, if it can, and behind that
the line status, the lock, the line status again, and the bytes of the cookie. -/
structure Round where
  taken : ℕ
  empty : Bool
  acquired : Bool
  stillEmpty : Bool
  cookie : Option (List UInt8)

/-- What went onto the queue, and what the port got of what had been there. -/
structure Queued where
  pushed : List ℕ
  sent : List UInt8

/-- The body of the loop. -/
def Round.body (round : Round) (sent : List UInt8) : List UInt8 :=
  if !round.empty then sent
  else if !round.acquired then sent
  else if !round.stillEmpty then sent
  else
    match round.cookie with
    | none => sent
    | some bytes => sent ++ bytes

/-- `TryPush` of so many bytes. -/
def Round.tryPush (round : Round) (count : ℕ) : ℕ := min round.taken count

/-- The loop where `ImmediateStatus` is zero.  It does not end before everything was taken. -/
def queueLoop (src cnt i : ℕ) (q : Queued) : List Round → Option Queued
  | [] => none
  | round :: rounds =>
      let start := src + i
      let i := round.tryPush cnt
      let pushed := q.pushed ++ List.range' start i
      if i < cnt then queueLoop (src + i) (cnt - i) i ⟨pushed, round.body q.sent⟩ rounds
      else some ⟨pushed, q.sent⟩

def writeQueued (src cnt : ℕ) (rounds : List Round) : Option Queued :=
  queueLoop src cnt 0 ⟨[], []⟩ rounds

/-- The queue of a port has one of three sizes. -/
structure ManagedSerialPort where
  queueSize : ℕ
  outputCount : UInt16
  sizes : queueSize = 1 ∨ queueSize = 16 ∨ queueSize = 64

/-- What happens at the port: its line status is read, and it gets bytes. -/
inductive Event where
  | status (empty : Bool)
  | out (bytes : List ℕ)

/-- A port that takes more bytes. -/
structure Ready extends ManagedSerialPort where
  lt : outputCount.toNat < queueSize

theorem ManagedSerialPort.queueSize_pos (port : ManagedSerialPort) : 0 < port.queueSize := by
  have hsizes := port.sizes
  omega

/-- `CanWrite` on an empty port. -/
def ManagedSerialPort.reset (port : ManagedSerialPort) : Ready :=
  { port with
    outputCount := 0
    lt := port.queueSize_pos }

/-- `while (OutputCount >= QueueSize && !CanWrite())`, with what is read then.  Without an end there
are only the events. -/
def wait (port : ManagedSerialPort) : List Bool → List Event × Option (Ready × List Bool)
  | [] =>
      if h : port.outputCount.toNat < port.queueSize then ([], some (⟨port, h⟩, []))
      else ([], none)
  | empty :: readings =>
      if h : port.outputCount.toNat < port.queueSize then ([], some (⟨port, h⟩, empty :: readings))
      else if empty then ([.status true], some (port.reset, readings))
      else
        let r := wait port readings
        (.status false :: r.1, r.2)

/-- `Out8n` of so many bytes. -/
def Ready.out (port : Ready) (j : ℕ) : ManagedSerialPort :=
  { port.toManagedSerialPort with
    outputCount := port.outputCount + UInt16.ofNat j }

/-- The loop where `ImmediateStatus` is two, and whether it ends. -/
def immediateLoop (src cnt i : ℕ) (port : ManagedSerialPort) (readings : List Bool) :
    List Event × Bool :=
  if _hi : i < cnt then
    match wait port readings with
    | (events, none) => (events, false)
    | (events, some (port, readings)) =>
        let j := min (port.queueSize - port.outputCount.toNat) (cnt - i)
        let r := immediateLoop src cnt (i + j) (port.out j) readings
        (events ++ .out (List.range' (src + i) j) :: r.1, r.2)
  else ([], true)
termination_by cnt - i
decreasing_by
  have hlt := port.lt
  omega

def writeImmediate (src cnt : ℕ) (port : ManagedSerialPort) (readings : List Bool) :
    List Event × Bool :=
  immediateLoop src cnt 0 port readings

/-! ## What is to hold -/

/-- Whatever the source holds, its bytes were pushed in order, and no others were read. -/
def QueuedExact (src cnt : ℕ) (q : Queued) : Prop :=
  (∀ mem : ℕ → UInt8, q.pushed.map mem = (List.range' src cnt).map mem) ∧
    ∀ p ∈ q.pushed, src ≤ p ∧ p < src + cnt

def Event.bytes : Event → List ℕ
  | .status _ => []
  | .out bytes => bytes

/-- The bytes that the port got, in order. -/
def output (events : List Event) : List ℕ := events.flatMap Event.bytes

/-- All bytes are sent in order, unless there is no end, and never more than the port takes without
finding it empty. -/
structure ImmediateExact (src cnt queueSize : ℕ) (r : List Event × Bool) : Prop where
  ended : r.2 = true → output r.1 = List.range' src cnt
  begun : output r.1 <+: List.range' src cnt
  bounded : ∀ before between behind, r.1 = before ++ between ++ behind →
    .status true ∉ between → (output between).length ≤ queueSize

/-- What `TryPush` takes in each round up to the end. -/
def results (cnt : ℕ) : List Round → List ℕ
  | [] => []
  | round :: rounds =>
      let i := round.tryPush cnt
      if i < cnt then i :: results (cnt - i) rounds else [i]

/-- No two attempts in a row take something. -/
def Apart (cnt : ℕ) (rounds : List Round) : Prop :=
  (results cnt rounds).IsChain fun i j => i = 0 ∨ j = 0

/-! ## The queue -/

variable {src cnt i : ℕ} {q r : Queued} {rounds : List Round} {round : Round}

theorem tryPush_le (round : Round) (cnt : ℕ) : round.tryPush cnt ≤ cnt := Nat.min_le_right _ _

/-- Nothing can be told apart without the bytes of one place differing from those of another. -/
theorem map_mem_iff {ps qs : List ℕ} :
    (∀ mem : ℕ → UInt8, ps.map mem = qs.map mem) ↔ ps = qs := by
  constructor
  · intro h
    induction ps generalizing qs with
    | nil => exact (List.map_eq_nil_iff.mp (h fun _ => 0).symm).symm
    | cons p ps ih =>
        cases qs with
        | nil => exact nomatch h fun _ => 0
        | cons q qs =>
            have hhead : p = q := by
              have heq := (List.cons.inj (h fun k => if k = p then 1 else 0)).1
              by_contra hne
              dsimp only at heq
              rw [if_pos rfl, if_neg (Ne.symm hne)] at heq
              exact absurd heq (by decide)
            rw [hhead, ih fun mem => (List.cons.inj (h mem)).2]
  · rintro rfl mem
    rfl

theorem range'_eq_iff {a b n : ℕ} : List.range' a n = List.range' b n ↔ n = 0 ∨ a = b := by
  cases n with
  | zero => exact iff_of_true rfl (.inl rfl)
  | succ n =>
      rw [or_iff_right (Nat.succ_ne_zero n)]
      constructor
      · exact fun h => (List.cons.inj h).1
      · rintro rfl
        rfl

/-- The pushed bytes are those from the source on if and only if what was taken last and what is
taken first are not both something, and so on. -/
theorem queueLoop_iff (h : queueLoop src cnt i q rounds = some r) :
    ∃ pushed, r.pushed = q.pushed ++ pushed ∧ pushed.length = cnt ∧
      (pushed = List.range' src cnt ↔
        (i :: results cnt rounds).IsChain fun i j => i = 0 ∨ j = 0) := by
  induction rounds generalizing src cnt i q with
  | nil => exact nomatch h
  | cons round rounds ih =>
      have hle := tryPush_le round cnt
      have hfirst : List.range' (src + i) (round.tryPush cnt) =
          List.range' src (round.tryPush cnt) ↔ i = 0 ∨ round.tryPush cnt = 0 := by
        rw [range'_eq_iff, Nat.add_eq_left, or_comm]
      unfold queueLoop at h
      unfold results
      dsimp only at h ⊢
      by_cases hmore : round.tryPush cnt < cnt
      · rw [if_pos hmore] at h
        rw [if_pos hmore]
        obtain ⟨pushed, hpushed, hlen, hiff⟩ := ih h
        refine ⟨List.range' (src + i) (round.tryPush cnt) ++ pushed, ?_, ?_, ?_⟩
        · rw [hpushed, List.append_assoc]
        · rw [List.length_append, List.length_range', hlen]
          omega
        · have hsplit : List.range' src cnt = List.range' src (round.tryPush cnt) ++
              List.range' (src + round.tryPush cnt) (cnt - round.tryPush cnt) := by
            rw [List.range'_append_1, Nat.add_sub_cancel' hle]
          rw [hsplit, List.isChain_cons_cons, ← hiff, ← hfirst]
          constructor
          · exact fun heq => List.append_inj heq (by simp)
          · rintro ⟨hhead, htail⟩
            rw [hhead, htail]
      · have hall : round.tryPush cnt = cnt := Nat.le_antisymm hle (Nat.le_of_not_lt hmore)
        rw [if_neg hmore] at h
        rw [if_neg hmore, ← Option.some.inj h, List.isChain_cons_cons, ← hfirst, hall]
        refine ⟨_, rfl, List.length_range', ?_⟩
        rw [and_iff_left (List.isChain_singleton _)]

/-- The queue gets the source in order if and only if no two attempts in a row take something. -/
theorem queuedExact_iff (h : writeQueued src cnt rounds = some q) :
    QueuedExact src cnt q ↔ Apart cnt rounds := by
  obtain ⟨pushed, hpushed, -, hiff⟩ := queueLoop_iff h
  have hstart : (0 :: results cnt rounds).IsChain (fun i j => i = 0 ∨ j = 0) ↔
      Apart cnt rounds := by
    unfold Apart
    cases results cnt rounds with
    | nil => exact iff_of_true (List.isChain_singleton _) .nil
    | cons r rs =>
        rw [List.isChain_cons_cons]
        exact and_iff_right (.inl rfl)
  rw [List.nil_append] at hpushed
  unfold QueuedExact
  rw [map_mem_iff, ← hstart, ← hiff, hpushed]
  constructor
  · exact fun hexact => hexact.1
  · rintro rfl
    refine ⟨rfl, fun p hp => ?_⟩
    have hrange := List.mem_range'_1.mp hp
    omega

/-! ## The port -/

variable {queueSize c : ℕ} {port : ManagedSerialPort} {readings : List Bool}
  {events before between behind : List Event}

/-- The port gets no more than it takes, when it has so many bytes already. -/
def Within (queueSize : ℕ) : ℕ → List Event → Prop
  | _, [] => True
  | _, .status true :: events => Within queueSize 0 events
  | c, .status false :: events => Within queueSize c events
  | c, .out bytes :: events =>
      c + bytes.length ≤ queueSize ∧ Within queueSize (c + bytes.length) events

theorem Within.append_left (h : Within queueSize c (before ++ between)) :
    Within queueSize c before := by
  induction before generalizing c with
  | nil => exact trivial
  | cons event before ih =>
      cases event with
      | status empty =>
          cases empty with
          | false => exact @ih c h
          | true => exact @ih 0 h
      | out bytes => exact ⟨h.1, ih h.2⟩

theorem Within.append_right (h : Within queueSize c (before ++ between)) :
    ∃ c, Within queueSize c between := by
  induction before generalizing c with
  | nil => exact ⟨c, h⟩
  | cons event before ih =>
      cases event with
      | status empty =>
          cases empty with
          | false => exact @ih c h
          | true => exact @ih 0 h
      | out bytes => exact ih h.2

theorem Within.length_output (h : Within queueSize c between) (hnone : .status true ∉ between) :
    (output between).length ≤ queueSize - c := by
  induction between generalizing c with
  | nil => exact Nat.zero_le _
  | cons event between ih =>
      rw [List.mem_cons, not_or] at hnone
      cases event with
      | status empty =>
          cases empty with
          | false => exact @ih c h hnone.2
          | true => exact absurd rfl hnone.1
      | out bytes =>
          have hrest := ih h.2 hnone.2
          have hsplit : output (.out bytes :: between) = bytes ++ output between := rfl
          rw [hsplit, List.length_append]
          have hfirst := h.1
          omega

theorem output_append : output (before ++ between) = output before ++ output between :=
  List.flatMap_append

theorem wait_ready (h : port.outputCount.toNat < port.queueSize) :
    wait port readings = ([], some (⟨port, h⟩, readings)) := by
  cases readings with
  | nil => exact dif_pos h
  | cons empty readings => exact dif_pos h

/-- Waiting sends nothing. -/
theorem output_wait (port : ManagedSerialPort) (readings : List Bool) :
    output (wait port readings).1 = [] := by
  by_cases h : port.outputCount.toNat < port.queueSize
  · rw [wait_ready h]
    rfl
  · induction readings with
    | nil =>
        unfold wait
        rw [dif_neg h]
        rfl
    | cons empty readings ih =>
        unfold wait
        rw [dif_neg h]
        cases empty with
        | true => rfl
        | false => exact ih

theorem wait_within (port : ManagedSerialPort) (readings : List Bool)
    (hnone : (wait port readings).2 = none) (c : ℕ) :
    Within queueSize c (wait port readings).1 := by
  by_cases h : port.outputCount.toNat < port.queueSize
  · rw [wait_ready h] at hnone
    exact nomatch hnone
  · induction readings with
    | nil =>
        unfold wait
        rw [dif_neg h]
        trivial
    | cons empty readings ih =>
        unfold wait at hnone ⊢
        rw [dif_neg h] at hnone ⊢
        cases empty with
        | true => exact nomatch hnone
        | false => exact ih hnone

/-- It ends with the count as it was, or with an empty port. -/
theorem wait_then_within {ready : Ready} {rest : List Bool}
    (hsome : (wait port readings).2 = some (ready, rest)) :
    ready.queueSize = port.queueSize ∧
      (Within queueSize ready.outputCount.toNat events →
        Within queueSize port.outputCount.toNat ((wait port readings).1 ++ events)) := by
  by_cases h : port.outputCount.toNat < port.queueSize
  · rw [wait_ready h] at hsome ⊢
    cases hsome
    exact ⟨rfl, id⟩
  · induction readings with
    | nil =>
        unfold wait at hsome
        rw [dif_neg h] at hsome
        exact nomatch hsome
    | cons empty readings ih =>
        unfold wait at hsome ⊢
        rw [dif_neg h] at hsome ⊢
        cases empty with
        | true =>
            cases hsome
            exact ⟨rfl, id⟩
        | false => exact ih hsome

/-- Bytes that the port takes are counted. -/
theorem Ready.toNat_out (ready : Ready) {j : ℕ}
    (hj : j ≤ ready.queueSize - ready.outputCount.toNat) :
    (ready.out j).outputCount.toNat = ready.outputCount.toNat + j := by
  have hsizes := ready.sizes
  have hlt := ready.lt
  show (ready.outputCount + UInt16.ofNat j).toNat = _
  rw [UInt16.toNat_add, UInt16.toNat_ofNat']
  omega

theorem immediateLoop_spec (port : ManagedSerialPort) (readings : List Bool) (hi : i ≤ cnt) :
    ((immediateLoop src cnt i port readings).2 = true →
        output (immediateLoop src cnt i port readings).1 = List.range' (src + i) (cnt - i)) ∧
      output (immediateLoop src cnt i port readings).1 <+: List.range' (src + i) (cnt - i) ∧
      Within port.queueSize port.outputCount.toNat (immediateLoop src cnt i port readings).1 := by
  induction hn : cnt - i using Nat.strongRecOn generalizing i port readings with
  | ind n ih =>
      unfold immediateLoop
      by_cases hmore : i < cnt
      · rw [dif_pos hmore]
        have hout := output_wait port readings
        have hnone := @wait_within port.queueSize port readings
        have hsome := @wait_then_within port.queueSize port readings
        cases hw : wait port readings with
        | mk events found =>
            rw [hw] at hout hnone hsome
            cases found with
            | none =>
                dsimp only
                rw [hout]
                exact ⟨nofun, List.nil_prefix, hnone rfl _⟩
            | some found =>
                obtain ⟨ready, rest⟩ := found
                dsimp only
                have hlt := ready.lt
                generalize hj : min (ready.queueSize - ready.outputCount.toNat) (cnt - i) = j
                have hcount := @ready.toNat_out j (by omega)
                obtain ⟨hended, hbegun, hwithin⟩ :=
                  ih (cnt - (i + j)) (by omega) (ready.out j) rest (by omega) rfl
                have hsplit : List.range' (src + i) n =
                    List.range' (src + i) j ++ List.range' (src + (i + j)) (cnt - (i + j)) := by
                  rw [← Nat.add_assoc, List.range'_append_1]
                  congr 1
                  omega
                have hsent : ∀ later, output (events ++ .out (List.range' (src + i) j) :: later) =
                    List.range' (src + i) j ++ output later := by
                  intro later
                  rw [output_append, hout]
                  rfl
                rw [hsplit, hsent]
                refine ⟨fun hend => ?_, ?_, ?_⟩
                · rw [hended hend]
                · exact (List.prefix_append_right_inj _).mpr hbegun
                · have hsize := (@hsome [] _ _ rfl).1
                  refine (hsome rfl).2 ⟨?_, ?_⟩
                  · rw [List.length_range', ← hsize]
                    omega
                  · rw [List.length_range', ← hcount, ← hsize]
                    exact hwithin
      · rw [dif_neg hmore]
        have hzero : n = 0 := by omega
        rw [hzero]
        exact ⟨fun _ => rfl, List.prefix_refl _, trivial⟩

theorem writeImmediate_exact (src cnt : ℕ) (port : ManagedSerialPort) (readings : List Bool) :
    ImmediateExact src cnt port.queueSize (writeImmediate src cnt port readings) := by
  obtain ⟨hended, hbegun, hwithin⟩ := @immediateLoop_spec src cnt 0 port readings (Nat.zero_le cnt)
  constructor
  case ended => exact hended
  case begun => exact hbegun
  case bounded =>
    intro before between behind hsplit hnone
    unfold writeImmediate at hsplit
    rw [hsplit] at hwithin
    obtain ⟨c, hbetween⟩ := hwithin.append_left.append_right
    exact Nat.le_trans (hbetween.length_output hnone) (Nat.sub_le _ _)

/-- Attempts that take two bytes, if they can, or none. -/
def attempts : List Bool → List Round
  | [] => []
  | takes :: rest => ⟨if takes then 2 else 0, false, false, false, none⟩ :: attempts rest

/-- A port of the smallest size. -/
def ancient : ManagedSerialPort where
  queueSize := 1
  outputCount := 0
  sizes := .inl rfl

end Beelzebub.SerialOutput
