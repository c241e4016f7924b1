import Beelzebub.Djinn.SerialPort
import Mathlib.Logic.Relation

/-!
# The handshake with a debugger

`DjinnInitialize` makes up to eight attempts at a handshake.  A failure is dealt with by a macro
whose `continue` belongs to the loop in the macro itself, so that with attempts left nothing comes
of it.  The status is stored as uninitialized whichever way the function ends.

The callbacks answer with what they are given, in order; without an answer a call does not return.
-/

namespace Beelzebub.Djinn.Handshake

/-! ## The code -/

inductive DjinnInitStatus where
  | uninitialized
  | initInProgress
  | initialized
  deriving DecidableEq

inductive DjinnInitRes where
  | success
  | tooLate
  | dataInvalid
  | packetTooSmall
  | handshakeFailed
  deriving DecidableEq

/-- What any poller may return.  That of a serial port never waits. -/
inductive DjinnPollRes where
  | success
  | nothing
  | await
  | packetSizeOor
  deriving DecidableEq

/-- A packet of ten bytes. -/
structure DwordPacket where
  type : UInt16
  payload : UInt64
  deriving DecidableEq

def DwordPacket.size : ℕ := 10

def handshakePacket0 : UInt16 := 0x0001

def handshakePacket1 : UInt16 := 0x0002

def handshakePacket2 : UInt16 := 0x0003

def nuance : UInt64 := 0xF00000FF00FFF000

/-- What the poller does: its result, the length if it stores one, and the packet that is in the
buffer after it if it stores any of it. -/
structure PollAnswer where
  res : DjinnPollRes
  len : Option ℕ
  packet : Option DwordPacket

/-- The callbacks with their answers, unless they are null. -/
structure DjinnInitData where
  sender : Option (List DjinnSendRes)
  poller : Option (List PollAnswer)
  packetMaxSize : ℕ

structure State where
  initStatus : DjinnInitStatus
  debuggerCount : ℕ

/-- `Send`: the first answer that is not to wait. -/
def send : List DjinnSendRes → Option (DjinnSendRes × List DjinnSendRes)
  | [] => none
  | res :: rest => if res = .await then send rest else some (res, rest)

/-- The variables that a poller stores to. -/
structure Buffer where
  packet : DwordPacket
  len : ℕ

def PollAnswer.store (a : PollAnswer) (buf : Buffer) : Buffer :=
  ⟨a.packet.getD buf.packet, a.len.getD buf.len⟩

/-- `Poll` with a length. -/
def pollLen : ℕ → Buffer → List PollAnswer → Option (DjinnPollRes × Buffer × List PollAnswer)
  | _, _, [] => none
  | timeout, buf, a :: rest =>
      if a.res = .await then pollLen timeout (a.store buf) rest
      else if a.res = .nothing ∧ timeout > 0 then pollLen (timeout - 1) (a.store buf) rest
      else some (a.res, a.store buf, rest)

/-- `Poll` without one.  The length has no value before. -/
def poll (timeout : ℕ) (buf : Buffer) (polls : List PollAnswer) :
    Option (DjinnPollRes × Buffer × List PollAnswer) :=
  match pollLen timeout buf polls with
  | none => none
  | some (res, buf, rest) =>
      if buf.len ≠ DwordPacket.size then some (.packetSizeOor, buf, rest) else some (res, buf, rest)

/-- An attempt as far as it goes: the first packet and how it was sent, what was polled, and the
second packet and how it was sent. -/
structure Attempt where
  first : DwordPacket × DjinnSendRes
  polled : Option (DjinnPollRes × Buffer)
  answer : Option (DwordPacket × DjinnSendRes)

/-- What a call returns and leaves, and the attempts it made. -/
structure Outcome where
  res : DjinnInitRes
  state : State
  attempts : List Attempt

/-- `FAIL` returns where it does not `continue`, and that goes no further than the macro. -/
def failReturns (attempts : ℕ) : Bool := !(attempts > 1)

def State.store (s : State) (initStatus : DjinnInitStatus) : State :=
  { s with initStatus := initStatus }

/-- The loop, with so many attempts left.  `stack` is the length that is left over from before. -/
def attemptLoop (stack : ℕ → ℕ) :
    ℕ → State → List DjinnSendRes → List PollAnswer → List Attempt → Option Outcome
  | 0, s, _, _, made => some ⟨.success, s.store .uninitialized, made⟩
  | n + 1, s, sends, polls, made => do
      let attempts := n + 1
      let (sres, sends) ← send sends
      let first := (⟨handshakePacket0, nuance⟩, sres)
      if sres ≠ .success && failReturns attempts then
        return ⟨.handshakeFailed, s.store .uninitialized, made ++ [⟨first, none, none⟩]⟩
      let (pres, buf1, polls) ← poll 1000000 ⟨⟨0, 0⟩, stack attempts⟩ polls
      if pres = .nothing then
        let made := made ++ [⟨first, some (pres, buf1), none⟩]
        if attempts > 1 then return ⟨.success, s.store .uninitialized, made⟩
        else attemptLoop stack n s sends polls made
      else
        if (pres ≠ .success || buf1.packet.type ≠ handshakePacket1) && failReturns attempts then
          return ⟨.handshakeFailed, s.store .uninitialized,
            made ++ [⟨first, some (pres, buf1), none⟩]⟩
        let answer : DwordPacket := ⟨handshakePacket2, buf1.packet.payload ^^^ nuance⟩
        let (sres', _) ← send sends
        let made := made ++ [⟨first, some (pres, buf1), some (answer, sres')⟩]
        if sres' ≠ .success && failReturns attempts then
          return ⟨.handshakeFailed, s.store .uninitialized, made⟩
        let s := { s with debuggerCount := s.debuggerCount + 1 }
        return ⟨.success, s.store .uninitialized, made⟩

def djinnInitialize (stack : ℕ → ℕ) (s : State) (data : DjinnInitData) : Option Outcome :=
  if s.initStatus ≠ .uninitialized then some ⟨.tooLate, s, []⟩
  else
    match data.sender, data.poller with
    | some sends, some polls =>
        if data.packetMaxSize < 6 then some ⟨.packetTooSmall, s.store .uninitialized, []⟩
        else attemptLoop stack 8 (s.store .initInProgress) sends polls []
    | _, _ => some ⟨.dataInvalid, s.store .uninitialized, []⟩

def djinnGetInitialized (s : State) : Bool := s.initStatus = .initialized

/-! ## What is to hold -/

/-- The first packet was sent, the debugger's one came whole, and it was answered. -/
def Attempt.Complete (a : Attempt) : Prop :=
  ∃ buf, a.first = (⟨handshakePacket0, nuance⟩, .success) ∧
    a.polled = some (.success, buf) ∧ buf.len = DwordPacket.size ∧
    buf.packet.type = handshakePacket1 ∧
    a.answer = some (⟨handshakePacket2, buf.packet.payload ^^^ nuance⟩, .success)

/-- No debugger listens. -/
def Attempt.Unanswered (a : Attempt) : Prop := ∃ buf, a.polled = some (.nothing, buf)

/-- A state that calls lead to. -/
def Later : State → State → Prop :=
  Relation.ReflTransGen fun s s' =>
    ∃ stack data o, djinnInitialize stack s data = some o ∧ o.state = s'

/-- A debugger is counted only after a complete handshake, and once; after an attempt that failed
there is another, or no success; and after a success it is too late. -/
structure CallExact (s : State) (o : Outcome) : Prop where
  counted : o.state.debuggerCount ≠ s.debuggerCount → ∃ a ∈ o.attempts, a.Complete
  once : o.state.debuggerCount = s.debuggerCount ∨ o.state.debuggerCount = s.debuggerCount + 1
  retried : ∀ a, o.attempts.getLast? = some a → ¬a.Complete → ¬a.Unanswered →
    o.attempts.length = 8 ∧ o.res = .handshakeFailed
  initialized : o.res = .success → ∀ s', Later o.state s' →
    djinnGetInitialized s' = true ∧
      ∀ stack data o', djinnInitialize stack s' data = some o' → o'.res = .tooLate

/-- The call comes too late, or its data is of no use. -/
def Rejected (s : State) (data : DjinnInitData) : Prop :=
  s.initStatus ≠ .uninitialized ∨ data.sender = none ∨ data.poller = none ∨ data.packetMaxSize < 6

/-! ## What a call does -/

variable {stack : ℕ → ℕ} {s : State} {data : DjinnInitData} {o : Outcome} {n : ℕ}
  {sends : List DjinnSendRes} {polls : List PollAnswer} {made : List Attempt}

/-- With attempts left, the first one is the last: it ends with success whatever comes of it, and
the debugger is counted unless nothing was polled. -/
theorem attemptLoop_ends (h : attemptLoop stack (n + 2) s sends polls made = some o) :
    o.res = .success ∧ ∃ a, o.attempts = made ++ [a] ∧
      (a.Unanswered ∧ o.state = s.store .uninitialized ∨
        ¬a.Unanswered ∧ o.state = ⟨.uninitialized, s.debuggerCount + 1⟩) := by
  have hfail : failReturns (n + 2) = false := by
    unfold failReturns
    simp
  unfold attemptLoop at h
  cases hfirst : send sends with
  | none =>
      rw [hfirst] at h
      exact nomatch h
  | some first =>
      obtain ⟨sres, sends⟩ := first
      rw [hfirst] at h
      simp only [Option.bind_eq_bind, Option.bind_some, hfail, Bool.and_false, Bool.false_eq_true,
        if_false] at h
      cases hpoll : poll 1000000 ⟨⟨0, 0⟩, stack (n + 1 + 1)⟩ polls with
      | none =>
          rw [hpoll] at h
          exact nomatch h
      | some polled =>
          obtain ⟨pres, buf, polls⟩ := polled
          rw [hpoll, Option.bind_some] at h
          dsimp only at h
          by_cases hnothing : pres = .nothing
          · rw [if_pos hnothing, if_pos (by omega)] at h
            cases h
            subst hnothing
            exact ⟨rfl, _, rfl, .inl ⟨⟨buf, rfl⟩, rfl⟩⟩
          · rw [if_neg hnothing] at h
            cases hsecond : send sends with
            | none =>
                rw [hsecond] at h
                exact nomatch h
            | some second =>
                rw [hsecond] at h
                cases h
                refine ⟨rfl, _, rfl, .inr ⟨?_, rfl⟩⟩
                rintro ⟨buf', heq⟩
                cases heq
                exact hnothing rfl

/-- A call is rejected, or makes one attempt and ends with success. -/
theorem rejected_or_ends (h : djinnInitialize stack s data = some o) :
    Rejected s data ∧ o.res ≠ .success ∧ o.attempts = [] ∧
        o.state.debuggerCount = s.debuggerCount ∨
      ¬Rejected s data ∧ o.res = .success ∧ ∃ a, o.attempts = [a] ∧
        (a.Unanswered ∧ o.state = ⟨.uninitialized, s.debuggerCount⟩ ∨
          ¬a.Unanswered ∧ o.state = ⟨.uninitialized, s.debuggerCount + 1⟩) := by
  unfold djinnInitialize at h
  by_cases hstatus : s.initStatus = .uninitialized
  · rw [if_neg (not_not.mpr hstatus)] at h
    cases hsender : data.sender with
    | none =>
        rw [hsender] at h
        cases h
        exact .inl ⟨.inr (.inl hsender), nofun, rfl, rfl⟩
    | some sends =>
        cases hpoller : data.poller with
        | none =>
            rw [hsender, hpoller] at h
            cases h
            exact .inl ⟨.inr (.inr (.inl hpoller)), nofun, rfl, rfl⟩
        | some polls =>
            rw [hsender, hpoller] at h
            dsimp only at h
            by_cases hsize : data.packetMaxSize < 6
            · rw [if_pos hsize] at h
              cases h
              exact .inl ⟨.inr (.inr (.inr hsize)), nofun, rfl, rfl⟩
            · rw [if_neg hsize] at h
              obtain ⟨hres, a, hattempts, hcount⟩ := attemptLoop_ends h
              refine .inr ⟨?_, hres, a, hattempts, hcount⟩
              rintro (hreject | hreject | hreject | hreject)
              · exact hreject hstatus
              · exact nomatch hsender.symm.trans hreject
              · exact nomatch hpoller.symm.trans hreject
              · exact hsize hreject
  · rw [if_pos hstatus] at h
    cases h
    exact .inl ⟨.inl hstatus, nofun, rfl, rfl⟩

/-- A sender and a poller that fail. -/
def failing : DjinnInitData where
  sender := some [.packetSizeOor, .packetSizeOor]
  poller := some [⟨.packetSizeOor, none, none⟩]
  packetMaxSize := 10

end Beelzebub.Djinn.Handshake
