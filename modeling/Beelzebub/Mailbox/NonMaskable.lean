import Beelzebub.Mailbox.Delivery

/-!
# Non-maskable mail

Each core has a stack of entries, which a poster pushes to by compare-exchange and which the
handler takes as a whole.  The handler follows the links of what it took.  An entry lives on
the stack of its poster, who returns once all destinations have decremented its counter.

For an entry that is not awaited the handler decrements the counter first and reads the next
link after it.
-/

namespace Beelzebub.Mailbox

/-! ## The code -/

/-- Where `Post` is with an entry: before the load for a target, before the exchange with
what it has loaded, or back. -/
inductive NmPosting (ε : Type) where
  | fresh
  | loading (i : Nat)
  | exchanging (i : Nat) (top : Option ε)
  | returned

/-- How many of the `count` targets have the entry. -/
def NmPosting.progress {ε : Type} (count : Nat) : NmPosting ε → Nat
  | .fresh => 0
  | .loading i => i
  | .exchanging i _ => i
  | .returned => count

/-- Where the handler of a core is: outside, before it takes the stack, at an entry, before
it reads the next link of an entry that it no longer needs, before the function, or before
the decrement that follows the function. -/
inductive Handling (ε : Type) where
  | idle
  | taking
  | reading (e : ε)
  | leaving (e : ε) (i : Nat)
  | running (e : ε) (next : Option ε) (counted : Bool)
  | settling (e : ε) (next : Option ε)

/-- The next round of the inner loop, or of the outer one. -/
def Handling.resume {ε : Type} : Option ε → Handling ε
  | some e => .reading e
  | none => .taking

/-- The entry whose fields the next step reads or writes. -/
def Handling.touched {ε : Type} : Handling ε → Option ε
  | .idle => none
  | .taking => none
  | .reading e => some e
  | .leaving e _ => some e
  | .running _ _ _ => none
  | .settling e _ => some e

/-- The entry that was reached and whose function is not called yet. -/
def Handling.doing {ε : Type} : Handling ε → List ε
  | .idle => []
  | .taking => []
  | .reading _ => []
  | .leaving e _ => [e]
  | .running e _ _ => [e]
  | .settling _ _ => []

/-- The entry that comes next in what was taken from the stack. -/
def Handling.goesTo {ε : Type} (next : ε → Nat → Option ε) : Handling ε → Option ε
  | .idle => none
  | .taking => none
  | .reading e => some e
  | .leaving e i => next e i
  | .running _ next _ => next
  | .settling _ next => next

/-- The last three fields are only for the record. -/
structure NmMachine (κ ε : Type) where
  next : ε → Nat → Option ε
  destinationsLeft : ε → Nat
  posting : ε → NmPosting ε
  mailNmTop : κ → Option ε
  handling : κ → Handling ε
  pushed : κ → List ε
  executed : κ → List ε
  decremented : κ → List ε

namespace NmMachine

variable {κ ε : Type} [DecidableEq κ] [DecidableEq ε] (mail : ε → Mail κ)

def initial : NmMachine κ ε where
  next _ _ := none
  destinationsLeft e := (mail e).destinations.length
  posting _ := .fresh
  mailNmTop _ := none
  handling _ := .idle
  pushed _ := []
  executed _ := []
  decremented _ := []

def setPosting (e : ε) (p : NmPosting ε) (m : NmMachine κ ε) : NmMachine κ ε :=
  { m with posting := Function.update m.posting e p }

def setTop (c : κ) (top : Option ε) (m : NmMachine κ ε) : NmMachine κ ε :=
  { m with mailNmTop := Function.update m.mailNmTop c top }

def setHandling (c : κ) (h : Handling ε) (m : NmMachine κ ε) : NmMachine κ ε :=
  { m with handling := Function.update m.handling c h }

def setNext (e : ε) (i : Nat) (next : Option ε) (m : NmMachine κ ε) : NmMachine κ ε :=
  { m with next := Function.update m.next e (Function.update (m.next e) i next) }

def decrement (c : κ) (e : ε) (m : NmMachine κ ε) : NmMachine κ ε :=
  { m with
    destinationsLeft := Function.update m.destinationsLeft e
      ((m.destinationsLeft e + 0xFFFFFFFF) % 2 ^ 32)
    decremented := Function.update m.decremented c (m.decremented c ++ [e]) }

/-- The load of the stack of the next target. -/
def load (e : ε) (m : NmMachine κ ε) : NmMachine κ ε :=
  match m.posting e with
  | .loading i =>
      match (mail e).destinations[i]? with
      | some c => m.setPosting e (.exchanging i (m.mailNmTop c))
      | none => m
  | .fresh => m
  | .exchanging _ _ => m
  | .returned => m

/-- The store of the link, and the exchange. -/
def exchange (e : ε) (m : NmMachine κ ε) : NmMachine κ ε :=
  match m.posting e with
  | .exchanging i top =>
      match (mail e).destinations[i]? with
      | some c =>
          let m := m.setNext e i top
          if m.mailNmTop c = top then
            { (m.setTop c (some e)).setPosting e (.loading (i + 1)) with
              pushed := Function.update m.pushed c (m.pushed c ++ [e]) }
          else m.setPosting e (.exchanging i (m.mailNmTop c))
      | none => m
  | .fresh => m
  | .loading _ => m
  | .returned => m

/-- The next step of the handler of a core. -/
def advance (c : κ) (m : NmMachine κ ε) : NmMachine κ ε :=
  match m.handling c with
  | .idle => m
  | .taking =>
      match m.mailNmTop c with
      | none => m.setHandling c .idle
      | some e => (m.setTop c none).setHandling c (.reading e)
  | .reading e =>
      match scan (mail e).destinations c (mail e).destinations.length 0 with
      | .here i =>
          if (mail e).await then m.setHandling c (.running e (m.next e i) true)
          else (m.decrement c e).setHandling c (.leaving e i)
      | .missing => m.setHandling c (.running e (some e) false)
      | .beyond => m.setHandling c (.running e (some e) false)
  | .leaving e i => m.setHandling c (.running e (m.next e i) false)
  | .running e next counted =>
      let m := { m with executed := Function.update m.executed c (m.executed c ++ [e]) }
      m.setHandling c (if counted then .settling e next else .resume next)
  | .settling e next => (m.decrement c e).setHandling c (.resume next)

inductive Action (κ ε : Type) where
  | post (e : ε)
  | load (e : ε)
  | exchange (e : ε)
  | finish (e : ε)
  | interrupt (c : κ)
  | advance (c : κ)

def perform (m : NmMachine κ ε) : Action κ ε → NmMachine κ ε
  | .post e => m.setPosting e (.loading 0)
  | .load e => m.load mail e
  | .exchange e => m.exchange mail e
  | .finish e => m.setPosting e .returned
  | .interrupt c => m.setHandling c .taking
  | .advance c => m.advance mail c

/-- An entry is posted once; `Post` returns when it reads zero; the handler is not
interrupted by itself. -/
def Enabled (m : NmMachine κ ε) : Action κ ε → Prop
  | .post e => m.posting e = .fresh
  | .load e => ∃ i, m.posting e = .loading i ∧ i < (mail e).destinations.length
  | .exchange e => ∃ i top, m.posting e = .exchanging i top
  | .finish e => m.posting e = .loading (mail e).destinations.length ∧ m.destinationsLeft e = 0
  | .interrupt c => m.handling c = .idle
  | .advance c => m.handling c ≠ .idle

inductive Reachable (kind : NmMachine κ ε → Action κ ε → Prop) : NmMachine κ ε → Prop
  | start : Reachable kind (initial mail)
  | step {m : NmMachine κ ε} (a : Action κ ε) : Reachable kind m → m.Enabled mail a → kind m a →
      Reachable kind (m.perform mail a)

/-! ## What is asked -/

/-- The link of a core in an entry. -/
def nextAt (m : NmMachine κ ε) (c : κ) (e : ε) : Option ε :=
  m.next e ((mail e).destinations.idxOf c)

def progress (m : NmMachine κ ε) (e : ε) : Nat :=
  (m.posting e).progress (mail e).destinations.length

/-- Every entry that was pushed is executed once: it has been, or it is ahead of the handler,
or the stack reaches it.  What a handler touches is alive and still owed a decrement. -/
structure Delivers (m : NmMachine κ ε) : Prop where
  once : ∀ c, ∃ batch stack, Linked.Chain (m.nextAt mail c) ((m.handling c).goesTo m.next) batch ∧
    Linked.Chain (m.nextAt mail c) (m.mailNmTop c) stack ∧
    (m.pushed c).Perm (m.executed c ++ ((m.handling c).doing ++ (batch ++ stack))) ∧
    (m.pushed c).Nodup
  pushed : ∀ c e, e ∈ m.pushed c ↔ ∃ i < m.progress mail e, (mail e).destinations[i]? = some c
  touched : ∀ c, ∀ e ∈ (m.handling c).touched, e ∉ m.decremented c ∧ m.posting e ≠ .returned
  returned : ∀ e, m.posting e = .returned → ∀ c ∈ (mail e).destinations, e ∈ m.executed c

/-- Every entry that is posted is awaited. -/
def Fit (_ : NmMachine κ ε) : Action κ ε → Prop
  | .post e => (mail e).await = true
  | .load _ => True
  | .exchange _ => True
  | .finish _ => True
  | .interrupt _ => True
  | .advance _ => True

/-! ## The invariant -/

/-- The entry that was executed and whose counter is still to be decremented. -/
def owed : Handling ε → List ε
  | .settling e _ => [e]
  | .idle => []
  | .taking => []
  | .reading _ => []
  | .leaving _ _ => []
  | .running _ _ _ => []

/-- The handler only meets entries that are awaited. -/
def Awaiting : Handling ε → Prop
  | .leaving _ _ => False
  | .running _ _ counted => counted = true
  | .idle => True
  | .taking => True
  | .reading _ => True
  | .settling _ _ => True

/-- Where the entries that were pushed to a core are: executed, under way, in the batch that
was taken, or on the stack. -/
structure Holds (m : NmMachine κ ε) (c : κ) (xs ys : List ε) : Prop where
  batch : Linked.Chain (m.nextAt mail c) ((m.handling c).goesTo m.next) xs
  stack : Linked.Chain (m.nextAt mail c) (m.mailNmTop c) ys
  pushed : (m.pushed c).Perm (m.executed c ++ ((m.handling c).doing ++ (xs ++ ys)))
  nodup : (m.pushed c).Nodup
  awaiting : Awaiting (m.handling c)
  owed : (m.executed c).Perm (m.decremented c ++ NmMachine.owed (m.handling c))

structure Inv (m : NmMachine κ ε) (batch stack : κ → List ε) : Prop where
  holds : ∀ c, m.Holds mail c (batch c) (stack c)
  mem : ∀ c e, e ∈ m.pushed c ↔ ∃ i < m.progress mail e, (mail e).destinations[i]? = some c
  bound : ∀ e i top, m.posting e = .exchanging i top → i < (mail e).destinations.length
  await : ∀ e, m.posting e ≠ .fresh → (mail e).await = true
  left : ∀ e, m.destinationsLeft e =
    (mail e).destinations.countP fun c => !decide (e ∈ m.decremented c)
  returned : ∀ e, m.posting e = .returned → m.destinationsLeft e = 0

variable {mail} {m : NmMachine κ ε} {batch stack : κ → List ε} {c d : κ} {e : ε}

theorem inv_initial : (initial mail : NmMachine κ ε).Inv mail (fun _ => []) fun _ => [] := by
  refine ⟨?_, ?_, nofun, ?_, ?_, nofun⟩
  · intro c
    exact ⟨rfl, rfl, List.Perm.refl _, List.nodup_nil, trivial, List.Perm.refl _⟩
  · intro c e
    constructor
    · intro he
      cases he
    · rintro ⟨i, hi, -⟩
      cases hi
  · intro e he
    exact absurd rfl he
  · intro e
    symm
    exact List.countP_eq_length.mpr fun c _ => rfl

theorem Inv.mem_destinations (h : m.Inv mail batch stack) (he : e ∈ m.pushed c) :
    c ∈ (mail e).destinations := by
  obtain ⟨i, -, hi⟩ := (h.mem c e).mp he
  exact List.mem_of_getElem? hi

/-- What was pushed is awaited. -/
theorem Inv.await_of_pushed (h : m.Inv mail batch stack) (he : e ∈ m.pushed c) :
    (mail e).await = true := by
  refine h.await e ?_
  intro hfresh
  obtain ⟨i, hi, -⟩ := (h.mem c e).mp he
  rw [progress, hfresh] at hi
  cases hi

/-- What a core has not decremented is alive. -/
theorem Inv.not_returned (h : m.Inv mail batch stack) (he : e ∈ m.pushed c)
    (hnot : e ∉ m.decremented c) : 0 < m.destinationsLeft e ∧ m.posting e ≠ .returned := by
  have hpos : 0 < m.destinationsLeft e := by
    rw [h.left, List.countP_pos_iff]
    exact ⟨c, h.mem_destinations he, by rw [decide_eq_false hnot]; rfl⟩
  refine ⟨hpos, ?_⟩
  intro hret
  rw [h.returned e hret] at hpos
  exact Nat.lt_irrefl 0 hpos

/-- What a handler touches was pushed and not decremented. -/
theorem Inv.touched (h : m.Inv mail batch stack) (he : e ∈ (m.handling c).touched) :
    e ∈ m.pushed c ∧ e ∉ m.decremented c := by
  obtain ⟨hbatch, -, hpushed, hnodup, hawaiting, howed⟩ := h.holds c
  have hnd := hpushed.nodup_iff.mp hnodup
  cases hc : m.handling c with
  | idle =>
      rw [hc] at he
      cases he
  | taking =>
      rw [hc] at he
      cases he
  | leaving x i =>
      rw [hc] at hawaiting
      exact absurd hawaiting id
  | running x next counted =>
      rw [hc] at he
      cases he
  | reading x =>
      rw [hc] at he hbatch hpushed hnd howed
      obtain rfl : x = e := Option.some.inj he
      cases hb : batch c with
      | nil =>
          rw [hb] at hbatch
          cases hbatch
      | cons y rest =>
          rw [hb] at hbatch hpushed hnd
          obtain rfl : x = y := Option.some.inj hbatch.1
          refine ⟨hpushed.mem_iff.mpr (by simp), ?_⟩
          intro hdec
          have hexec : x ∈ m.executed c := howed.mem_iff.mpr (List.mem_append_left _ hdec)
          exact (List.nodup_append.mp hnd).2.2 x hexec x (by simp) rfl
  | settling x next =>
      rw [hc] at he hpushed hnd howed
      obtain rfl : x = e := Option.some.inj he
      have hexec : x ∈ m.executed c :=
        howed.mem_iff.mpr (List.mem_append_right _ (List.mem_singleton_self x))
      refine ⟨hpushed.mem_iff.mpr (List.mem_append_left _ hexec), ?_⟩
      have hnd' := howed.nodup_iff.mp (List.nodup_append.mp hnd).1
      intro hdec
      exact (List.nodup_append.mp hnd').2.2 x hdec x (List.mem_singleton_self x) rfl

theorem Inv.toDelivers (h : m.Inv mail batch stack) : m.Delivers mail := by
  refine ⟨?_, h.mem, ?_, ?_⟩
  · intro c
    have hh := h.holds c
    exact ⟨batch c, stack c, hh.batch, hh.stack, hh.pushed, hh.nodup⟩
  · intro c e he
    obtain ⟨hpushed, hnot⟩ := h.touched he
    exact ⟨hnot, (h.not_returned hpushed hnot).2⟩
  · intro e hret c hc
    have hdec : e ∈ m.decremented c := by
      by_contra hnot
      have hpushed : e ∈ m.pushed c := by
        rw [h.mem, progress, hret]
        obtain ⟨i, hi⟩ := List.mem_iff_getElem?.mp hc
        obtain ⟨hlt, -⟩ := List.getElem?_eq_some_iff.mp hi
        exact ⟨i, hlt, hi⟩
      exact (h.not_returned hpushed hnot).2 hret
    exact (h.holds c).owed.mem_iff.mpr (List.mem_append_left _ hdec)

/-! ## Posting -/

omit [DecidableEq ε] in
theorem Holds.congr {m' : NmMachine κ ε} {xs ys : List ε} (h : m.Holds mail c xs ys)
    (hnext : ∀ x ∈ m.pushed c, m'.nextAt mail c x = m.nextAt mail c x)
    (hhandling : m'.handling c = m.handling c) (htop : m'.mailNmTop c = m.mailNmTop c)
    (hpushed : m'.pushed c = m.pushed c) (hexecuted : m'.executed c = m.executed c)
    (hdecremented : m'.decremented c = m.decremented c) : m'.Holds mail c xs ys := by
  have hin : ∀ x ∈ xs ++ ys, x ∈ m.pushed c := by
    intro x hx
    exact h.pushed.mem_iff.mpr (List.mem_append_right _ (List.mem_append_right _ hx))
  have hgoes : (m.handling c).goesTo m'.next = (m.handling c).goesTo m.next := by
    have haw := h.awaiting
    cases hc : m.handling c with
    | idle => rfl
    | taking => rfl
    | reading x => rfl
    | leaving x i =>
        rw [hc] at haw
        exact absurd haw id
    | running x next counted => rfl
    | settling x next => rfl
  refine ⟨?_, ?_, ?_, ?_, ?_, ?_⟩
  · rw [hhandling, hgoes]
    exact (Linked.chain_congr fun x hx => hnext x (hin x (List.mem_append_left _ hx))).mpr h.batch
  · rw [htop]
    exact (Linked.chain_congr fun x hx => hnext x (hin x (List.mem_append_right _ hx))).mpr h.stack
  · rw [hpushed, hexecuted, hhandling]
    exact h.pushed
  · rw [hpushed]
    exact h.nodup
  · rw [hhandling]
    exact h.awaiting
  · rw [hexecuted, hdecremented, hhandling]
    exact h.owed

/-- `Post` goes on without a push. -/
theorem Inv.setPosting (h : m.Inv mail batch stack) {p : NmPosting ε}
    (hprogress : p.progress (mail e).destinations.length = m.progress mail e)
    (hbound : ∀ i top, p = .exchanging i top → i < (mail e).destinations.length)
    (hawait : p ≠ .fresh → (mail e).await = true)
    (hreturned : p = .returned → m.destinationsLeft e = 0) :
    (m.setPosting e p).Inv mail batch stack := by
  have hposting : ∀ x, (m.setPosting e p).posting x = if x = e then p else m.posting x := by
    intro x
    show Function.update m.posting e p x = _
    by_cases hx : x = e
    · rw [hx, Function.update_self, if_pos rfl]
    · rw [Function.update_of_ne hx, if_neg hx]
  have hsame : ∀ x, (m.setPosting e p).progress mail x = m.progress mail x := by
    intro x
    rw [progress, hposting]
    split
    · rename_i hx
      rw [hx, hprogress]
    · rfl
  refine ⟨?_, ?_, ?_, ?_, h.left, ?_⟩
  · intro c
    exact (h.holds c).congr (fun _ _ => rfl) rfl rfl rfl rfl rfl
  · intro c x
    rw [hsame]
    exact h.mem c x
  · intro x i top hx
    rw [hposting] at hx
    split at hx
    · rename_i hxe
      rw [hxe]
      exact hbound i top hx
    · exact h.bound x i top hx
  · intro x hx
    rw [hposting] at hx
    split at hx
    · rename_i hxe
      rw [hxe]
      exact hawait hx
    · exact h.await x hx
  · intro x hx
    rw [hposting] at hx
    split at hx
    · rename_i hxe
      rw [hxe]
      exact hreturned hx
    · exact h.returned x hx

/-- The link that the poster writes belongs to no one yet. -/
theorem nextAt_setNext {i : Nat} {top : Option ε} (hi : (mail e).destinations[i]? = some c) {x : ε} :
    (m.setNext e i top).nextAt mail d x =
      if d = c ∧ x = e then top else m.nextAt mail d x := by
  obtain ⟨hlt, hget⟩ := List.getElem?_eq_some_iff.mp hi
  have hidx : (mail e).destinations.idxOf c = i := by
    rw [← hget]
    exact (mail e).distinct.idxOf_getElem i hlt
  have hc : c ∈ (mail e).destinations := List.mem_of_getElem? hi
  unfold nextAt NmMachine.setNext
  by_cases hx : x = e
  · subst hx
    dsimp only
    rw [Function.update_self]
    by_cases hd : d = c
    · subst hd
      rw [hidx, Function.update_self, if_pos ⟨rfl, rfl⟩]
    · rw [Function.update_of_ne, if_neg fun h => hd h.1]
      intro heq
      rw [← hidx] at heq
      exact hd ((List.idxOf_inj hc).mp heq.symm).symm
  · dsimp only
    rw [Function.update_of_ne hx, if_neg fun h => hx h.2]

theorem Inv.setNext (h : m.Inv mail batch stack) {i : Nat} (top : Option ε)
    (hi : (mail e).destinations[i]? = some c) (hout : e ∉ m.pushed c) :
    (m.setNext e i top).Inv mail batch stack := by
  refine ⟨?_, h.mem, h.bound, h.await, h.left, h.returned⟩
  intro d
  refine (h.holds d).congr ?_ rfl rfl rfl rfl rfl
  intro x hx
  rw [nextAt_setNext hi, if_neg]
  rintro ⟨rfl, rfl⟩
  exact hout hx

/-- The exchange puts the entry on top of the stack. -/
theorem Inv.push (h : m.Inv mail batch stack) {i : Nat}
    (hpost : m.progress mail e = i) (hawait : (mail e).await = true)
    (hi : (mail e).destinations[i]? = some c) (hout : e ∉ m.pushed c)
    (hnext : m.nextAt mail c e = m.mailNmTop c) :
    Inv mail { (m.setTop c (some e)).setPosting e (.loading (i + 1)) with
      pushed := Function.update m.pushed c (m.pushed c ++ [e]) }
      batch (Function.update stack c (e :: stack c)) := by
  have hposting : ∀ x, Function.update m.posting e (.loading (i + 1)) x =
      if x = e then .loading (i + 1) else m.posting x := by
    intro x
    by_cases hx : x = e
    · rw [hx, Function.update_self, if_pos rfl]
    · rw [Function.update_of_ne hx, if_neg hx]
  obtain ⟨hlt, -⟩ := List.getElem?_eq_some_iff.mp hi
  refine ⟨?_, ?_, ?_, ?_, h.left, ?_⟩
  · intro d
    have hh := h.holds d
    by_cases hd : d = c
    · subst hd
      rw [Function.update_self]
      refine ⟨hh.batch, ?_, ?_, ?_, hh.awaiting, hh.owed⟩
      · show Linked.Chain (m.nextAt mail d) (Function.update m.mailNmTop d (some e) d) _
        rw [Function.update_self]
        refine ⟨rfl, ?_⟩
        rw [hnext]
        exact hh.stack
      · show (Function.update m.pushed d _ d).Perm _
        rw [Function.update_self]
        refine (List.perm_append_singleton e _).trans ((hh.pushed.cons e).trans ?_)
        rw [← List.append_assoc, ← List.append_assoc, ← List.append_assoc, ← List.append_assoc]
        exact List.perm_middle.symm
      · show (Function.update m.pushed d _ d).Nodup
        rw [Function.update_self, List.nodup_append_comm, List.singleton_append, List.nodup_cons]
        exact ⟨hout, hh.nodup⟩
    · rw [Function.update_of_ne hd]
      exact hh.congr (fun _ _ => rfl) rfl (Function.update_of_ne hd ..)
        (Function.update_of_ne hd ..) rfl rfl
  · intro d x
    show x ∈ Function.update m.pushed c _ d ↔
      ∃ j < NmPosting.progress _ (Function.update m.posting e _ x), _
    rw [hposting]
    have hold := h.mem d x
    by_cases hx : x = e
    · subst hx
      rw [if_pos rfl]
      rw [hpost] at hold
      by_cases hd : d = c
      · subst hd
        rw [Function.update_self]
        exact ⟨fun _ => ⟨i, Nat.lt_succ_self i, hi⟩, fun _ => by simp⟩
      · rw [Function.update_of_ne hd, hold]
        constructor
        · rintro ⟨j, hj, hjd⟩
          exact ⟨j, Nat.lt_succ_of_lt hj, hjd⟩
        · rintro ⟨j, hj, hjd⟩
          refine ⟨j, ?_, hjd⟩
          have hne : j ≠ i := by
            rintro rfl
            rw [hi] at hjd
            exact hd (Option.some.inj hjd).symm
          exact Nat.lt_of_le_of_ne (Nat.le_of_lt_succ hj) hne
    · rw [if_neg hx]
      by_cases hd : d = c
      · subst hd
        rw [Function.update_self, List.mem_append, List.mem_singleton, or_iff_left hx]
        exact hold
      · rw [Function.update_of_ne hd]
        exact hold
  · intro x j top hx
    change Function.update m.posting e _ x = _ at hx
    rw [hposting] at hx
    split at hx
    · cases hx
    · exact h.bound x j top hx
  · intro x hx
    change Function.update m.posting e _ x ≠ _ at hx
    rw [hposting] at hx
    split at hx
    · rename_i hxe
      rw [hxe]
      exact hawait
    · exact h.await x hx
  · intro x hx
    change Function.update m.posting e _ x = _ at hx
    rw [hposting] at hx
    split at hx
    · cases hx
    · exact h.returned x hx

theorem Inv.exchange (h : m.Inv mail batch stack) {i : Nat} {top : Option ε}
    (hpost : m.posting e = .exchanging i top) :
    ∃ stack', (m.exchange mail e).Inv mail batch stack' := by
  have hlt := h.bound e i top hpost
  obtain ⟨c, hc⟩ : ∃ c, (mail e).destinations[i]? = some c :=
    ⟨_, List.getElem?_eq_getElem hlt⟩
  have hprogress : m.progress mail e = i := by
    rw [progress, hpost]
    rfl
  have hawait : (mail e).await = true := h.await e (by rw [hpost]; exact nofun)
  -- the target stands at one place, which has not been reached before
  have hout : e ∉ m.pushed c := by
    intro he
    obtain ⟨j, hj, hjc⟩ := (h.mem c e).mp he
    obtain ⟨hjlt, -⟩ := List.getElem?_eq_some_iff.mp hjc
    rw [hprogress, (List.getElem?_inj hjlt (mail e).distinct).mp (hjc.trans hc.symm)] at hj
    exact Nat.lt_irrefl i hj
  have hstored := h.setNext top hc hout
  unfold NmMachine.exchange
  rw [hpost]
  dsimp only
  rw [hc]
  dsimp only
  split
  · rename_i htop
    refine ⟨_, hstored.push hprogress hawait hc hout ?_⟩
    rw [nextAt_setNext hc, if_pos ⟨rfl, rfl⟩]
    exact htop.symm
  · refine ⟨stack, hstored.setPosting hprogress.symm ?_ (fun _ => hawait) nofun⟩
    intro j top' hj
    cases hj
    exact hlt

theorem Inv.load (h : m.Inv mail batch stack) {i : Nat} (hpost : m.posting e = .loading i)
    (hi : i < (mail e).destinations.length) : (m.load mail e).Inv mail batch stack := by
  unfold NmMachine.load
  rw [hpost]
  dsimp only
  rw [List.getElem?_eq_getElem hi]
  refine h.setPosting ?_ ?_ (fun _ => h.await e (by rw [hpost]; exact nofun)) nofun
  · rw [progress, hpost]
    rfl
  · intro j top hj
    cases hj
    exact hi

/-! ## Handling -/

/-- A step of the handler of one core. -/
theorem Inv.of_handler (h : m.Inv mail batch stack) {m' : NmMachine κ ε} {xs ys : List ε}
    (hnext : m'.next = m.next) (hposting : m'.posting = m.posting) (hpushed : m'.pushed = m.pushed)
    (hother : ∀ d, d ≠ c → m'.handling d = m.handling d ∧ m'.mailNmTop d = m.mailNmTop d ∧
      m'.executed d = m.executed d ∧ m'.decremented d = m.decremented d)
    (hc : m'.Holds mail c xs ys)
    (hleft : ∀ x, m'.destinationsLeft x =
      (mail x).destinations.countP fun d => !decide (x ∈ m'.decremented d))
    (hreturned : ∀ x, m.posting x = .returned → m'.destinationsLeft x = 0) :
    m'.Inv mail (Function.update batch c xs) (Function.update stack c ys) := by
  have hprogress : ∀ x, m'.progress mail x = m.progress mail x := by
    intro x
    unfold progress
    rw [hposting]
  refine ⟨?_, ?_, ?_, ?_, hleft, ?_⟩
  · intro d
    by_cases hd : d = c
    · subst hd
      rw [Function.update_self, Function.update_self]
      exact hc
    · rw [Function.update_of_ne hd, Function.update_of_ne hd]
      obtain ⟨h1, h2, h3, h4⟩ := hother d hd
      refine (h.holds d).congr ?_ h1 h2 (congrFun hpushed d) h3 h4
      intro x _
      unfold nextAt
      rw [hnext]
  · intro d x
    rw [hpushed, hprogress]
    exact h.mem d x
  · rw [hposting]
    exact h.bound
  · rw [hposting]
    exact h.await
  · rw [hposting]
    exact hreturned

/-- A step that touches no counter. -/
theorem Inv.step (h : m.Inv mail batch stack) (p : Handling ε) (top : Option ε)
    (executed : List ε) {xs ys : List ε}
    (hbatch : Linked.Chain (m.nextAt mail c) (p.goesTo m.next) xs)
    (hstack : Linked.Chain (m.nextAt mail c) top ys)
    (hpushed : (m.pushed c).Perm (executed ++ (p.doing ++ (xs ++ ys))))
    (hawaiting : Awaiting p) (howed : executed.Perm (m.decremented c ++ owed p)) :
    Inv mail { m with
      handling := Function.update m.handling c p
      mailNmTop := Function.update m.mailNmTop c top
      executed := Function.update m.executed c executed }
      (Function.update batch c xs) (Function.update stack c ys) := by
  refine h.of_handler rfl rfl rfl ?_ ⟨?_, ?_, ?_, (h.holds c).nodup, ?_, ?_⟩ h.left h.returned
  · intro d hd
    exact ⟨Function.update_of_ne hd .., Function.update_of_ne hd .., Function.update_of_ne hd ..,
      rfl⟩
  · show Linked.Chain (m.nextAt mail c) ((Function.update m.handling c p c).goesTo m.next) xs
    rw [Function.update_self]
    exact hbatch
  · show Linked.Chain (m.nextAt mail c) (Function.update m.mailNmTop c top c) ys
    rw [Function.update_self]
    exact hstack
  · show (m.pushed c).Perm (Function.update m.executed c executed c ++
      ((Function.update m.handling c p c).doing ++ (xs ++ ys)))
    rw [Function.update_self, Function.update_self]
    exact hpushed
  · show Awaiting (Function.update m.handling c p c)
    rw [Function.update_self]
    exact hawaiting
  · show (Function.update m.executed c executed c).Perm
      (m.decremented c ++ owed (Function.update m.handling c p c))
    rw [Function.update_self, Function.update_self]
    exact howed

omit [DecidableEq ε] in
theorem setHandling_eq (p : Handling ε) :
    m.setHandling c p = { m with
      handling := Function.update m.handling c p
      mailNmTop := Function.update m.mailNmTop c (m.mailNmTop c)
      executed := Function.update m.executed c (m.executed c) } := by
  rw [Function.update_eq_self, Function.update_eq_self]
  rfl

/-- The handler takes the stack, or finds it empty. -/
theorem Inv.take (h : m.Inv mail batch stack) (hc : m.handling c = .taking) :
    ∃ batch' stack', (m.advance mail c).Inv mail batch' stack' := by
  obtain ⟨hbatch, hstack, hpushed, -, -, howed⟩ := h.holds c
  rw [hc] at hbatch hpushed howed
  have hnil : batch c = [] := by
    cases hb : batch c with
    | nil => rfl
    | cons x rest =>
        rw [hb] at hbatch
        cases hbatch.1
  rw [hnil] at hpushed
  unfold NmMachine.advance
  rw [hc]
  dsimp only
  cases htop : m.mailNmTop c with
  | none =>
      have hnext := h.step .idle (m.mailNmTop c) (m.executed c) (Linked.chain_nil.mpr rfl) hstack
        hpushed trivial howed
      rw [← setHandling_eq] at hnext
      exact ⟨_, _, hnext⟩
  | some e =>
      rw [htop] at hstack
      have hnext := h.step (.reading e) none (m.executed c) hstack (Linked.chain_nil.mpr rfl)
        (by rw [List.append_nil]; exact hpushed) trivial howed
      rw [Function.update_eq_self c m.executed] at hnext
      exact ⟨_, _, hnext⟩

/-- The handler reads an entry of the batch. -/
theorem Inv.read (h : m.Inv mail batch stack) (hc : m.handling c = .reading e) :
    ∃ batch' stack', (m.advance mail c).Inv mail batch' stack' := by
  obtain ⟨hpushed_e, -⟩ := h.touched (c := c) (e := e) (by rw [hc]; rfl)
  obtain ⟨hbatch, hstack, hpushed, -, -, howed⟩ := h.holds c
  rw [hc] at hbatch hpushed howed
  have hmem := h.mem_destinations hpushed_e
  have hscan : scan (mail e).destinations c (mail e).destinations.length 0 =
      .here ((mail e).destinations.idxOf c) := by
    rw [Machine.scan_of_mem (mail e).distinct hmem _ _ (Nat.zero_le _), Nat.zero_add,
      if_pos (List.idxOf_lt_length_iff.mpr hmem)]
  have heq : m.advance mail c = m.setHandling c (.running e (m.nextAt mail c e) true) := by
    unfold NmMachine.advance
    rw [hc]
    dsimp only
    rw [hscan]
    dsimp only
    rw [if_pos (h.await_of_pushed hpushed_e)]
    rfl
  cases hb : batch c with
  | nil =>
      rw [hb] at hbatch
      cases hbatch
  | cons x rest =>
      rw [hb] at hbatch hpushed
      obtain rfl : e = x := Option.some.inj hbatch.1
      have hnext := h.step (.running e (m.nextAt mail c e) true) (m.mailNmTop c) (m.executed c)
        hbatch.2 hstack hpushed rfl howed
      rw [← setHandling_eq] at hnext
      rw [heq]
      exact ⟨_, _, hnext⟩

/-- The function is called. -/
theorem Inv.run (h : m.Inv mail batch stack) {next : Option ε} {counted : Bool}
    (hc : m.handling c = .running e next counted) :
    ∃ batch' stack', (m.advance mail c).Inv mail batch' stack' := by
  obtain ⟨hbatch, hstack, hpushed, -, hawaiting, howed⟩ := h.holds c
  rw [hc] at hbatch hpushed howed hawaiting
  obtain rfl : counted = true := hawaiting
  have hnext := h.step (.settling e next) (m.mailNmTop c) (m.executed c ++ [e]) hbatch hstack
    (by rw [List.append_assoc]; exact hpushed) trivial (by
      rw [show owed (.running e next true) = [] from rfl, List.append_nil] at howed
      exact howed.append_right [e])
  rw [Function.update_eq_self c m.mailNmTop] at hnext
  unfold NmMachine.advance
  rw [hc]
  exact ⟨_, _, hnext⟩

/-- The counter of an awaited entry is decremented after its function. -/
theorem Inv.settle (h : m.Inv mail batch stack) {next : Option ε}
    (hc : m.handling c = .settling e next) :
    ∃ batch' stack', (m.advance mail c).Inv mail batch' stack' := by
  obtain ⟨hpushed_e, hnot⟩ := h.touched (c := c) (e := e) (by rw [hc]; rfl)
  obtain ⟨hpos, halive⟩ := h.not_returned hpushed_e hnot
  obtain ⟨hbatch, hstack, hpushed, hnodup, -, howed⟩ := h.holds c
  rw [hc] at hbatch hpushed howed
  have hmem := h.mem_destinations hpushed_e
  have heq : m.advance mail c = (m.decrement c e).setHandling c (.resume next) := by
    unfold NmMachine.advance
    rw [hc]
  have hresume : (Handling.resume next).goesTo m.next = next ∧ (Handling.resume next).doing = [] ∧
      Awaiting (Handling.resume next) ∧ owed (Handling.resume next) = [] := by
    cases next with
    | none => exact ⟨rfl, rfl, trivial, rfl⟩
    | some x => exact ⟨rfl, rfl, trivial, rfl⟩
  obtain ⟨hgoes, hdoing, haw, howed'⟩ := hresume
  have hdec_c : (m.advance mail c).decremented c = m.decremented c ++ [e] := by
    rw [heq]
    exact Function.update_self ..
  have hdec_of : ∀ d, d ≠ c → (m.advance mail c).decremented d = m.decremented d := by
    intro d hd
    rw [heq]
    exact Function.update_of_ne hd ..
  have hhandling : (m.advance mail c).handling c = .resume next := by
    rw [heq]
    exact Function.update_self ..
  have hleft : ∀ x, (m.advance mail c).destinationsLeft x =
      if x = e then (m.destinationsLeft e + 0xFFFFFFFF) % 2 ^ 32 else m.destinationsLeft x := by
    intro x
    rw [heq]
    show Function.update m.destinationsLeft e _ x = _
    by_cases hx : x = e
    · rw [hx, Function.update_self, if_pos rfl]
    · rw [Function.update_of_ne hx, if_neg hx]
  have hholds : (m.advance mail c).Holds mail c (batch c) (stack c) := by
    refine ⟨?_, ?_, ?_, ?_, ?_, ?_⟩
    · rw [hhandling, heq]
      show Linked.Chain (m.nextAt mail c) ((Handling.resume next).goesTo m.next) (batch c)
      rw [hgoes]
      exact hbatch
    · rw [heq]
      exact hstack
    · rw [hhandling, hdoing, heq]
      exact hpushed
    · rw [heq]
      exact hnodup
    · rw [hhandling]
      exact haw
    · rw [hhandling, hdec_c, howed', List.append_nil, heq]
      exact howed
  refine ⟨_, _, h.of_handler ?_ ?_ ?_ ?_ hholds ?_ ?_⟩
  · rw [heq]
    rfl
  · rw [heq]
    rfl
  · rw [heq]
    rfl
  · intro d hd
    refine ⟨?_, ?_, ?_, hdec_of d hd⟩
    · rw [heq]
      exact Function.update_of_ne hd ..
    · rw [heq]
      rfl
    · rw [heq]
      rfl
  · intro x
    rw [hleft]
    split
    · rename_i hx
      subst hx
      have hcount := Machine.countP_settle (f := fun d => decide (x ∈ m.decremented d))
        (g := fun d => decide (x ∈ (m.advance mail c).decremented d)) (mail x).distinct hmem
        (decide_eq_false hnot)
        (decide_eq_true (by rw [hdec_c]; exact List.mem_append_right _ List.mem_cons_self))
        (fun d hd => by rw [hdec_of d hd])
      have hlt : m.destinationsLeft x < 2 ^ 32 := by
        rw [h.left]
        exact Nat.lt_of_le_of_lt List.countP_le_length (mail x).small
      rw [← h.left] at hcount
      omega
    · rename_i hx
      rw [h.left]
      refine List.countP_congr fun d _ => ?_
      by_cases hd : d = c
      · subst hd
        rw [hdec_c]
        simp [hx]
      · rw [hdec_of d hd]
  · intro x hx
    rw [hleft, if_neg]
    · exact h.returned x hx
    · rintro rfl
      exact halive hx

/-! ## Runs -/

theorem Inv.perform (h : m.Inv mail batch stack) {a : Action κ ε} (henabled : m.Enabled mail a)
    (hfit : m.Fit mail a) : ∃ batch' stack', (m.perform mail a).Inv mail batch' stack' := by
  cases a with
  | post e =>
      refine ⟨batch, stack, h.setPosting ?_ nofun (fun _ => hfit) nofun⟩
      rw [progress, show m.posting e = .fresh from henabled]
      rfl
  | load e =>
      obtain ⟨i, hpost, hi⟩ := henabled
      exact ⟨batch, stack, h.load hpost hi⟩
  | exchange e =>
      obtain ⟨i, top, hpost⟩ := henabled
      exact ⟨batch, h.exchange hpost⟩
  | finish e =>
      obtain ⟨hpost, hleft⟩ := henabled
      refine ⟨batch, stack, h.setPosting ?_ nofun (fun _ => ?_) fun _ => hleft⟩
      · rw [progress, hpost]
        rfl
      · exact h.await e (by rw [hpost]; exact nofun)
  | interrupt c =>
      obtain ⟨hbatch, hstack, hpushed, -, -, howed⟩ := h.holds c
      rw [show m.handling c = .idle from henabled] at hbatch hpushed howed
      have hnext := h.step .taking (m.mailNmTop c) (m.executed c) hbatch hstack hpushed trivial howed
      rw [← setHandling_eq] at hnext
      exact ⟨_, _, hnext⟩
  | advance c =>
      cases hc : m.handling c with
      | idle => exact absurd hc henabled
      | taking => exact h.take hc
      | reading e => exact h.read hc
      | leaving e i =>
          have haw := (h.holds c).awaiting
          rw [hc] at haw
          exact absurd haw id
      | running e next counted => exact h.run hc
      | settling e next => exact h.settle hc

theorem Reachable.inv (hm : Reachable mail (Fit mail) m) :
    ∃ batch stack, m.Inv mail batch stack := by
  induction hm with
  | start => exact ⟨_, _, inv_initial⟩
  | step a _ henabled hfit ih =>
      obtain ⟨batch, stack, h⟩ := ih
      exact h.perform henabled hfit

/-- An entry for core 0 that is awaited or not. -/
def single (await : Bool) : Unit → Mail Nat := fun _ => ⟨[0], await, by decide, by decide⟩

/-- The entry is pushed, taken and decremented, and its poster is gone. -/
def singleLeft : NmMachine Nat Unit :=
  [.post (), .load (), .exchange (), .interrupt 0, .advance 0, .advance 0, .finish ()].foldl
    (NmMachine.perform (single false)) (initial (single false))

end NmMachine

end Beelzebub.Mailbox
