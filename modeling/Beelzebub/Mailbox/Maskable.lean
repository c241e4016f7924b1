import Beelzebub.Lib.Linked
import Mathlib.Algebra.Ring.Nat
import Mathlib.Data.List.Count
import Mathlib.Data.List.Nodup
import Mathlib.Data.List.Perm.Basic

/-!
# Maskable mail

An entry has a link for each of its destinations and sits in the queues of all of them at
once.  A core follows a queue by finding its own link in each entry.  A poster that appends
to a queue finds the link of that core in the last entry, but it looks through as many links
as its own entry has.

A core may run mail inside mail, when a function posts and polls, so it has a stack of calls
of `ExecuteHead`.
-/

namespace Beelzebub.Mailbox

/-! ## The code -/

/-- What a poster fills in, function and cookie apart. -/
structure Mail (κ : Type) where
  destinations : List κ
  await : Bool
  distinct : destinations.Nodup
  small : destinations.length < 2 ^ 32

/-- The core that `Post` puts in a link of a broadcast. -/
def otherCore (self link : Nat) : Nat := if link < self then link else link + 1

theorem otherCore_inj {self i j : Nat} (h : otherCore self i = otherCore self j) : i = j := by
  unfold otherCore at h
  split at h
  · split at h
    · exact h
    · omega
  · split at h
    · omega
    · omega

/-- The entry that `Post` makes of a broadcast by one of `count` cores. -/
def Mail.broadcast (count self : Nat) (await : Bool) (hcount : count < 2 ^ 32) : Mail Nat where
  destinations := (List.range (count - 1)).map (otherCore self)
  await := await
  distinct := List.nodup_range.map fun _ _ => otherCore_inj
  small := by
    rw [List.length_map, List.length_range]
    omega

/-- A broadcast goes to all other cores. -/
theorem Mail.mem_broadcast {count self : Nat} {await : Bool} {hcount : count < 2 ^ 32}
    (hself : self < count) (c : Nat) :
    c ∈ (Mail.broadcast count self await hcount).destinations ↔ c < count ∧ c ≠ self := by
  show c ∈ (List.range (count - 1)).map (otherCore self) ↔ _
  rw [List.mem_map]
  constructor
  · rintro ⟨i, hi, rfl⟩
    rw [List.mem_range] at hi
    unfold otherCore
    split
    · omega
    · omega
  · rintro ⟨hc, hne⟩
    by_cases hlt : c < self
    · exact ⟨c, List.mem_range.mpr (by omega), if_pos hlt⟩
    · refine ⟨c - 1, List.mem_range.mpr (by omega), ?_⟩
      rw [otherCore, if_neg (by omega)]
      omega

/-- A search through the links of an entry. -/
inductive Found where
  | here (i : Nat)
  | missing
  | beyond

/-- The loop over the links for the one of `core`, from `i` on and for at most `fuel` links. -/
def scan {κ : Type} [DecidableEq κ] (links : List κ) (core : κ) : Nat → Nat → Found
  | 0, _ => .missing
  | fuel + 1, i =>
      match links[i]? with
      | none => .beyond
      | some c => if c = core then .here i else scan links core fuel (i + 1)

/-- Where `Post` is with an entry. -/
inductive Posting where
  | fresh
  | linking (i : Nat)
  | returned
deriving DecidableEq

/-- How many of the `count` links are in place. -/
def Posting.progress (count : Nat) : Posting → Nat
  | .fresh => 0
  | .linking i => i
  | .returned => count

/-- Where `ExecuteHead` is with an entry: before the function, inside it, or before the
decrement. -/
inductive Stage where
  | before
  | inside
  | after
deriving DecidableEq

structure Frame (ε : Type) where
  entry : ε
  /-- `dstCtr` is set. -/
  counted : Bool
  stage : Stage

/-- The entries that came to a core, that were dequeued there, whose function was called,
and with which the core is done.  Only for the record. -/
structure Log (ε : Type) where
  linked : List ε
  taken : List ε
  executed : List ε
  completed : List ε

structure Machine (κ ε : Type) where
  next : ε → Nat → Option ε
  destinationsLeft : ε → Nat
  posting : ε → Posting
  mailHead : κ → Option ε
  mailTail : κ → Option ε
  frames : κ → List (Frame ε)
  log : κ → Log ε

namespace Machine

variable {κ ε : Type} [DecidableEq κ] [DecidableEq ε] (mail : ε → Mail κ)

/-- Every entry is as its constructor leaves it. -/
def initial : Machine κ ε where
  next _ _ := none
  destinationsLeft e := (mail e).destinations.length
  posting _ := .fresh
  mailHead _ := none
  mailTail _ := none
  frames _ := []
  log _ := ⟨[], [], [], []⟩

def setNext (e : ε) (i : Nat) (next : Option ε) (m : Machine κ ε) : Machine κ ε :=
  { m with next := Function.update m.next e (Function.update (m.next e) i next) }

def setHead (c : κ) (head : Option ε) (m : Machine κ ε) : Machine κ ε :=
  { m with mailHead := Function.update m.mailHead c head }

def setTail (c : κ) (tail : Option ε) (m : Machine κ ε) : Machine κ ε :=
  { m with mailTail := Function.update m.mailTail c tail }

def setFrames (c : κ) (frames : List (Frame ε)) (m : Machine κ ε) : Machine κ ε :=
  { m with frames := Function.update m.frames c frames }

def note (c : κ) (f : Log ε → Log ε) (m : Machine κ ε) : Machine κ ε :=
  { m with log := Function.update m.log c (f (m.log c)) }

def setPosting (e : ε) (p : Posting) (m : Machine κ ε) : Machine κ ε :=
  { m with posting := Function.update m.posting e p }

/-- `--DestinationsLeft`. -/
def decrement (e : ε) (m : Machine κ ε) : Machine κ ε :=
  { m with
    destinationsLeft := Function.update m.destinationsLeft e
      ((m.destinationsLeft e + 0xFFFFFFFF) % 2 ^ 32) }

/-- The locked section of `PostInternal` for one target. -/
def linkTo (e : ε) (c : κ) (m : Machine κ ε) : Machine κ ε :=
  let m := m.note c fun l => { l with linked := l.linked ++ [e] }
  match m.mailTail c with
  | some tail =>
      let m :=
        match scan (mail tail).destinations c (mail e).destinations.length 0 with
        | .here j => m.setNext tail j (some e)
        | .missing => m
        | .beyond => m
      m.setTail c (some e)
  | none => (m.setHead c (some e)).setTail c (some e)

def link (e : ε) (m : Machine κ ε) : Machine κ ε :=
  match m.posting e with
  | .linking i =>
      match (mail e).destinations[i]? with
      | some c => (m.linkTo mail e c).setPosting e (.linking (i + 1))
      | none => m
  | .fresh => m
  | .returned => m

/-- `ExecuteHead` has found its link in the head. -/
def unlink (c : κ) (head : ε) (i : Nat) (m : Machine κ ε) : Machine κ ε :=
  let m := m.setHead c (m.next head i)
  let m := m.setFrames c (⟨head, (mail head).await, .before⟩ :: m.frames c)
  if (mail head).await then m else m.decrement head

def clearTail (c : κ) (m : Machine κ ε) : Machine κ ε :=
  if m.mailHead c = none then m.setTail c none else m

/-- The locked section of `ExecuteHead`. -/
def dequeue (c : κ) (m : Machine κ ε) : Machine κ ε :=
  match m.mailHead c with
  | none => m
  | some head =>
      let m := m.note c fun l => { l with taken := l.taken ++ [head] }
      let m :=
        match scan (mail head).destinations c (mail head).destinations.length 0 with
        | .here i => m.unlink mail c head i
        | .missing => m.setFrames c (⟨head, false, .before⟩ :: m.frames c)
        | .beyond => m.setFrames c (⟨head, false, .before⟩ :: m.frames c)
      m.clearTail c

/-- The next step of the innermost call of `ExecuteHead` on a core. -/
def advance (c : κ) (m : Machine κ ε) : Machine κ ε :=
  match m.frames c with
  | [] => m
  | f :: rest =>
      match f.stage with
      | .before =>
          (m.setFrames c ({ f with stage := .inside } :: rest)).note c fun l =>
            { l with executed := l.executed ++ [f.entry] }
      | .inside =>
          if f.counted then m.setFrames c ({ f with stage := .after } :: rest)
          else
            (m.setFrames c rest).note c fun l => { l with completed := l.completed ++ [f.entry] }
      | .after =>
          ((m.decrement f.entry).setFrames c rest).note c fun l =>
            { l with completed := l.completed ++ [f.entry] }

inductive Action (κ ε : Type) where
  | post (e : ε)
  | link (e : ε)
  | finish (e : ε)
  | dequeue (c : κ)
  | advance (c : κ)

def perform (m : Machine κ ε) : Action κ ε → Machine κ ε
  | .post e => m.setPosting e (.linking 0)
  | .link e => m.link mail e
  | .finish e => m.setPosting e .returned
  | .dequeue c => m.dequeue mail c
  | .advance c => m.advance c

/-- An entry is posted once; `Post` returns when it reads zero; a core dequeues when it is
not in a call, or inside a function. -/
def Enabled (m : Machine κ ε) : Action κ ε → Prop
  | .post e => m.posting e = .fresh
  | .link e => ∃ i, m.posting e = .linking i ∧ i < (mail e).destinations.length
  | .finish e => m.posting e = .linking (mail e).destinations.length ∧ m.destinationsLeft e = 0
  | .dequeue c => ∀ f ∈ (m.frames c).head?, f.stage = .inside
  | .advance c => m.frames c ≠ []

inductive Reachable (kind : Machine κ ε → Action κ ε → Prop) : Machine κ ε → Prop
  | start : Reachable kind (initial mail)
  | step {m : Machine κ ε} (a : Action κ ε) : Reachable kind m → m.Enabled mail a → kind m a →
      Reachable kind (m.perform mail a)

/-! ## What is asked -/

/-- The link of a core in an entry. -/
def nextAt (m : Machine κ ε) (c : κ) (e : ε) : Option ε :=
  m.next e ((mail e).destinations.idxOf c)

/-- The entry that is dequeued and whose function is about to be called. -/
def unrun : List (Frame ε) → List ε
  | [] => []
  | f :: _ => if f.stage = .before then [f.entry] else []

/-- How many destinations the entry was linked to. -/
def progress (m : Machine κ ε) (e : ε) : Nat :=
  (m.posting e).progress (mail e).destinations.length

/-- Mail is delivered: each core calls the functions in the order in which the entries were
linked, an entry comes once to each of its destinations, what is still reached has not been
dropped, and a returned entry is through everywhere. -/
structure Delivers (m : Machine κ ε) : Prop where
  order : ∀ c, ∃ queue, Linked.Chain (m.nextAt mail c) (m.mailHead c) queue ∧
    m.mailTail c = queue.getLast? ∧
    (m.log c).linked = (m.log c).executed ++ unrun (m.frames c) ++ queue ∧
    ∀ e ∈ queue, m.posting e ≠ .returned
  once : ∀ c, (m.log c).linked.Nodup ∧ ∀ e, e ∈ (m.log c).linked ↔
    ∃ i < m.progress mail e, (mail e).destinations[i]? = some c
  returned : ∀ e, m.posting e = .returned → ∀ c ∈ (mail e).destinations,
    e ∈ (m.log c).taken ∧
      ((mail e).await = true → e ∈ (m.log c).executed ∧ e ∈ (m.log c).completed)
  bounds : ∀ c tail, m.mailTail c = some tail →
    ∀ count, scan (mail tail).destinations c count 0 ≠ .beyond

/-- The core stands among the first links of the last entry, as many as the new entry has. -/
def Fit (m : Machine κ ε) : Action κ ε → Prop
  | .link e => ∀ i c tail, m.posting e = .linking i → (mail e).destinations[i]? = some c →
      m.mailTail c = some tail →
      (mail tail).destinations.idxOf c < (mail e).destinations.length
  | .post _ => True
  | .finish _ => True
  | .dequeue _ => True
  | .advance _ => True

/-! ## Searching the links -/

omit [DecidableEq ε] in
theorem scan_of_mem {links : List κ} {c : κ} (hnd : links.Nodup) (h : c ∈ links) (count i : Nat)
    (hi : i ≤ links.idxOf c) :
    scan links c count i = if links.idxOf c < i + count then .here (links.idxOf c) else .missing := by
  induction count generalizing i with
  | zero =>
      rw [scan, if_neg (by omega)]
  | succ count ih =>
      have hlt := List.idxOf_lt_length_iff.mpr h
      unfold scan
      rw [List.getElem?_eq_getElem (by omega)]
      dsimp only
      by_cases hic : links.idxOf c = i
      · subst hic
        rw [if_pos (List.getElem_idxOf _), if_pos (by omega)]
      · rw [if_neg, ih (i + 1) (by omega)]
        · congr 1
          exact propext (by omega)
        · intro heq
          have hidx := hnd.idxOf_getElem i (by omega)
          rw [heq] at hidx
          exact hic hidx

end Machine

end Beelzebub.Mailbox
