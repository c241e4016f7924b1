import Beelzebub.Lib.Word
import Mathlib.Logic.Function.Basic

/-!
# The handle table

A handle is taken from the list of the core, from the global list or from behind the cursor.
Every core stands between two atomic accesses of a call; the plain accesses belong to the
step of the atomic one before them.

`Deallocate` refuses what lies below the cursor, which is everything `Allocate` takes from
there, so in a run that meets its callers' expectations nothing is ever put on a list.
-/

namespace Beelzebub

namespace HandleTable

/-! ## The code -/

def invalidHandle : Nat := 0xFFFFFFFF
/-- The process identifier of an entry that is free. -/
def noProcess : Nat := 0xFFFF
def freeListThreshold : Nat := 100
def freeListRemovalCount : Nat := 90

structure Entry where
  referenceCount : Nat
  processId : Nat
  localIndex : Nat
deriving DecidableEq

/-- Where a core is: outside, in one of the loops of `Allocate`, before its check of the
cursor or the increment, or in the loop of `Deallocate` that splices a segment. -/
inductive Phase where
  | idle
  | loading (pcid : Nat)
  | exchanging (pcid res next : Nat)
  | checking (pcid : Nat)
  | counting (pcid : Nat)
  | splicing (ind last : Nat)
  | spliced (ind last : Nat)

structure Core where
  phase : Phase
  localFreeIndex : Nat
  localFreeCount : Nat

/-- The table and the cores.  Which handles are allocated is only for the record. -/
structure Machine (κ : Type) where
  table : Nat → Entry
  globalFreeIndex : Nat
  maximum : Nat
  cursor : Nat
  core : κ → Core
  live : Nat → Bool

/-- What a step answers its caller. -/
inductive Outcome where
  | running
  | handle (h : Nat)
  | tableFull
  | invalidPcid
  | deallocated (ind : Nat) (result : Bool)

namespace Machine

variable {κ : Type} [DecidableEq κ]

/-- After `Initialize`, on memory with any contents. -/
def initial (table : Nat → Entry) (limit : Nat) : Machine κ where
  table
  globalFreeIndex := invalidHandle
  maximum := limit
  cursor := 0
  core _ := ⟨.idle, invalidHandle, 0⟩
  live _ := false

def setPhase (c : κ) (p : Phase) (m : Machine κ) : Machine κ :=
  { m with core := Function.update m.core c { m.core c with phase := p } }

def setEntry (h : Nat) (e : Entry) (m : Machine κ) : Machine κ :=
  { m with table := Function.update m.table h e }

/-- `return_entry`. -/
def returnEntry (c : κ) (pcid res : Nat) (m : Machine κ) : Outcome × Machine κ :=
  (.handle res,
    { m.setEntry res ⟨0, pcid, invalidHandle⟩ with live := Function.update m.live res true }.setPhase
      c .idle)

/-- `Allocate` up to its first atomic access. -/
def allocate (c : κ) (pcid : Nat) (m : Machine κ) : Outcome × Machine κ :=
  if pcid = noProcess then (.invalidPcid, m)
  else
    let res := (m.core c).localFreeIndex
    if res ≠ invalidHandle then
      let core := { m.core c with
        localFreeIndex := (m.table res).localIndex
        localFreeCount := (m.core c).localFreeCount - 1 }
      { m with core := Function.update m.core c core }.returnEntry c pcid res
    else (.running, m.setPhase c (.loading pcid))

/-- The last entry of the segment that is spliced, and the steps to it. -/
def segment (table : Nat → Entry) : Nat → Nat → Nat × Nat
  | 0, entry => (entry, 0)
  | n + 1, entry =>
      let next := (table entry).localIndex
      if next ≠ invalidHandle then
        let (last, steps) := segment table n next
        (last, steps + 1)
      else (entry, 0)

/-- `Deallocate` up to its first atomic access.  From there on it can only answer `true`. -/
def deallocate (c : κ) (ind : Nat) (m : Machine κ) : Outcome × Machine κ :=
  if ind < m.cursor then (.deallocated ind false, m)
  else
    let entry := m.table ind
    if entry.processId = noProcess then (.deallocated ind false, m)
    else
      let own := m.core c
      let entry : Entry :=
        ⟨(entry.referenceCount + 0xFFFF) % 2 ^ 16, noProcess, own.localFreeIndex⟩
      let m := { m.setEntry ind entry with live := Function.update m.live ind false }
      let count := own.localFreeCount + 1
      if count ≥ freeListThreshold then
        let (last, steps) := segment m.table (freeListRemovalCount - 1) ind
        let core : Core :=
          ⟨.splicing ind last, (m.table last).localIndex, count - (steps + 1)⟩
        (.deallocated ind true, { m with core := Function.update m.core c core })
      else
        let core : Core := ⟨.idle, ind, count⟩
        (.deallocated ind true, { m with core := Function.update m.core c core })

/-- One atomic access of a call. -/
def advance (c : κ) (m : Machine κ) : Outcome × Machine κ :=
  match (m.core c).phase with
  | .idle => (.running, m)
  | .loading pcid =>
      let res := m.globalFreeIndex
      if res = invalidHandle then (.running, m.setPhase c (.checking pcid))
      else (.running, m.setPhase c (.exchanging pcid res (m.table res).localIndex))
  | .exchanging pcid res next =>
      if m.globalFreeIndex = next then
        { m with globalFreeIndex := res }.returnEntry c pcid res
      else (.running, m.setPhase c (.loading pcid))
  | .checking pcid =>
      if m.cursor ≥ m.maximum then (.tableFull, m.setPhase c .idle)
      else (.running, m.setPhase c (.counting pcid))
  | .counting pcid =>
      let res := m.cursor
      let m := { m with cursor := (m.cursor + 1) % 2 ^ 32 }
      if res ≥ m.maximum then (.tableFull, m.setPhase c .idle)
      else m.returnEntry c pcid res
  | .splicing ind last =>
      (.running, (m.setEntry last { m.table last with localIndex := m.globalFreeIndex }).setPhase c
        (.spliced ind last))
  | .spliced ind last =>
      if m.globalFreeIndex = (m.table last).localIndex then
        (.running, { m with globalFreeIndex := ind }.setPhase c .idle)
      else
        (.running, (m.setEntry last { m.table last with localIndex := m.globalFreeIndex }).setPhase
          c (.splicing ind last))

inductive Action (κ : Type) where
  | allocate (c : κ) (pcid : Nat)
  | deallocate (c : κ) (ind : Nat)
  | advance (c : κ)

def Action.core : Action κ → κ
  | .allocate c _ => c
  | .deallocate c _ => c
  | .advance c => c

def perform (m : Machine κ) : Action κ → Outcome × Machine κ
  | .allocate c pcid => m.allocate c pcid
  | .deallocate c ind => m.deallocate c ind
  | .advance c => m.advance c

/-- A core calls when it is outside, with a handle, and goes on when it is inside. -/
def Enabled (m : Machine κ) : Action κ → Prop
  | .allocate c _ => (m.core c).phase = .idle
  | .deallocate c ind => (m.core c).phase = .idle ∧ ind < 2 ^ 32
  | .advance c => (m.core c).phase ≠ .idle

/-- The states that steps of some kind lead to. -/
inductive Reachable (kind : Machine κ → Action κ → Prop) (m₀ : Machine κ) : Machine κ → Prop
  | start : Reachable kind m₀ m₀
  | step {m : Machine κ} (a : Action κ) : Reachable kind m₀ m → m.Enabled a → kind m a →
      Reachable kind m₀ (m.perform a).2

/-! ## What is asked of a step -/

/-- The handles of a list. -/
inductive Listed (table : Nat → Entry) : Nat → Nat → Prop
  | here {h : Nat} : h ≠ invalidHandle → Listed table h h
  | next {first h : Nat} : first ≠ invalidHandle → Listed table (table first).localIndex h →
      Listed table first h

/-- `Allocate` may still answer this handle. -/
def Returnable (m : Machine κ) (h : Nat) : Prop :=
  ∃ m' a, Reachable (fun _ _ => True) m m' ∧ m'.Enabled a ∧ (m'.perform a).1 = .handle h

/-- No handle is given twice, exactly the allocated ones are taken back, and the table is
full only if no handle is left. -/
def Answers (m : Machine κ) (a : Action κ) : Outcome × Machine κ → Prop
  | (.handle h, _) => m.live h = false
  | (.tableFull, _) => ∀ h < m.maximum, m.live h = true ∨
      ∃ c, c ≠ a.core ∧ Listed m.table (m.core c).localFreeIndex h
  | (.deallocated ind result, m') =>
      (result = true ↔ m.live ind = true) ∧ (result = true → m'.Returnable ind)
  | (.running, _) => True
  | (.invalidPcid, _) => True

def Correct (m : Machine κ) (a : Action κ) : Prop := m.Answers a (m.perform a)

/-! ## Runs that take nothing back -/

/-- The call finds nothing to take back, and the cursor has room. -/
def Vain (m : Machine κ) : Action κ → Prop
  | .allocate _ _ => True
  | .deallocate _ ind =>
      m.live ind = false ∧ (m.cursor ≤ ind → (m.table ind).processId = noProcess)
  | .advance c => ∀ pcid, (m.core c).phase = .counting pcid → m.cursor + 1 < 2 ^ 32

/-- Outside, or in `Allocate` on the way to the cursor. -/
inductive Searching : Phase → Prop
  | idle : Searching .idle
  | loading (pcid : Nat) : Searching (.loading pcid)
  | checking (pcid : Nat) : Searching (.checking pcid)
  | counting (pcid : Nat) : Searching (.counting pcid)

/-- The lists are empty, and the cursor says which handles are allocated. -/
structure Inv (limit : Nat) (m : Machine κ) : Prop where
  maximum : m.maximum = limit
  global : m.globalFreeIndex = invalidHandle
  lists : ∀ c, (m.core c).localFreeIndex = invalidHandle
  phase : ∀ c, Searching (m.core c).phase
  live : ∀ h, m.live h = true ↔ h < m.cursor ∧ h < limit

variable {m m₀ : Machine κ} {c : κ} {limit pcid ind : Nat} {table : Nat → Entry} {p : Phase}

omit [DecidableEq κ] in
theorem inv_initial : (initial table limit : Machine κ).Inv limit := by
  refine ⟨rfl, rfl, fun _ => rfl, fun _ => .idle, ?_⟩
  intro h
  exact ⟨nofun, fun hlt => absurd hlt.1 (Nat.not_lt_zero h)⟩

theorem Inv.setPhase (h : m.Inv limit) (hp : Searching p) : (m.setPhase c p).Inv limit := by
  refine ⟨h.maximum, h.global, ?_, ?_, h.live⟩
  · intro d
    show (Function.update m.core c _ d).localFreeIndex = _
    by_cases hdc : d = c
    · rw [hdc, Function.update_self]
      exact h.lists c
    · rw [Function.update_of_ne hdc]
      exact h.lists d
  · intro d
    show Searching (Function.update m.core c _ d).phase
    by_cases hdc : d = c
    · rw [hdc, Function.update_self]
      exact hp
    · rw [Function.update_of_ne hdc]
      exact h.phase d

/-- The local list is empty, so `Allocate` goes on to the global one. -/
theorem Inv.allocate_eq (h : m.Inv limit) :
    m.allocate c pcid =
      if pcid = noProcess then (.invalidPcid, m) else (.running, m.setPhase c (.loading pcid)) := by
  unfold allocate
  rw [h.lists c, if_neg (not_not_intro rfl)]

/-- A call in vain is refused. -/
theorem deallocate_vain (hvain : m.Vain (.deallocate c ind)) :
    m.deallocate c ind = (.deallocated ind false, m) := by
  unfold deallocate
  by_cases hlt : ind < m.cursor
  · rw [if_pos hlt]
  · rw [if_neg hlt]
    exact if_pos (hvain.2 (Nat.not_lt.mp hlt))

/-- The increment takes the handle under the cursor. -/
theorem Inv.count (h : m.Inv limit) (hroom : m.cursor + 1 < 2 ^ 32) (hlt : m.cursor < limit) :
    ({ m with cursor := (m.cursor + 1) % 2 ^ 32 }.returnEntry c pcid m.cursor).2.Inv limit := by
  have hnext : Inv limit
      { m.setEntry m.cursor ⟨0, pcid, invalidHandle⟩ with
        cursor := (m.cursor + 1) % 2 ^ 32, live := Function.update m.live m.cursor true } := by
    refine ⟨h.maximum, h.global, h.lists, h.phase, ?_⟩
    intro x
    show Function.update m.live m.cursor true x = true ↔ x < (m.cursor + 1) % 2 ^ 32 ∧ x < limit
    rw [Nat.mod_eq_of_lt hroom]
    by_cases hx : x = m.cursor
    · rw [hx, Function.update_self]
      simp [hlt]
    · rw [Function.update_of_ne hx, h.live]
      omega
  exact hnext.setPhase .idle

omit [DecidableEq κ] in
/-- The increment found the table full. -/
theorem Inv.overrun (h : m.Inv limit) (hroom : m.cursor + 1 < 2 ^ 32) (hge : limit ≤ m.cursor) :
    Inv limit { m with cursor := (m.cursor + 1) % 2 ^ 32 } := by
  refine ⟨h.maximum, h.global, h.lists, h.phase, ?_⟩
  intro x
  show m.live x = true ↔ x < (m.cursor + 1) % 2 ^ 32 ∧ x < limit
  rw [Nat.mod_eq_of_lt hroom, h.live]
  omega

/-- What an atomic access can do while the lists are empty. -/
theorem Inv.advance_cases (h : m.Inv limit) :
    (∃ p, Searching p ∧ m.advance c = (.running, m.setPhase c p)) ∨
    (m.maximum ≤ m.cursor ∧ m.advance c = (.tableFull, m.setPhase c .idle)) ∨
    ∃ pcid, (m.core c).phase = .counting pcid ∧
      (m.maximum ≤ m.cursor ∧ m.advance c =
          (.tableFull, { m with cursor := (m.cursor + 1) % 2 ^ 32 }.setPhase c .idle) ∨
        m.cursor < m.maximum ∧ m.advance c =
          { m with cursor := (m.cursor + 1) % 2 ^ 32 }.returnEntry c pcid m.cursor) := by
  have hphase := h.phase c
  unfold advance
  cases hc : (m.core c).phase with
  | idle =>
      refine Or.inl ⟨.idle, .idle, ?_⟩
      have hsame : m.setPhase c .idle = m := by
        rw [Machine.setPhase, ← hc, Function.update_eq_self]
      rw [hsame]
  | loading pcid =>
      refine Or.inl ⟨.checking pcid, .checking pcid, ?_⟩
      exact if_pos h.global
  | checking pcid =>
      by_cases hge : m.cursor ≥ m.maximum
      · exact Or.inr (Or.inl ⟨hge, if_pos hge⟩)
      · exact Or.inl ⟨.counting pcid, .counting pcid, if_neg hge⟩
  | counting pcid =>
      refine Or.inr (Or.inr ⟨pcid, rfl, ?_⟩)
      by_cases hge : m.cursor ≥ m.maximum
      · exact Or.inl ⟨hge, if_pos hge⟩
      · exact Or.inr ⟨Nat.lt_of_not_le hge, if_neg hge⟩
  | exchanging pcid res next =>
      rw [hc] at hphase
      cases hphase
  | splicing ind last =>
      rw [hc] at hphase
      cases hphase
  | spliced ind last =>
      rw [hc] at hphase
      cases hphase

theorem Inv.advance (h : m.Inv limit) (hroom : m.Vain (.advance c)) :
    (m.advance c).2.Inv limit := by
  have hmax := h.maximum
  rcases h.advance_cases with ⟨p, hp, heq⟩ | ⟨_, heq⟩ | ⟨pcid, hc, ⟨hge, heq⟩ | ⟨hlt, heq⟩⟩
  · rw [heq]
    exact h.setPhase hp
  · rw [heq]
    exact h.setPhase .idle
  · rw [heq]
    exact (h.overrun (hroom pcid hc) (hmax ▸ hge)).setPhase .idle
  · rw [heq]
    exact h.count (hroom pcid hc) (hmax ▸ hlt)

theorem Inv.perform (h : m.Inv limit) {a : Action κ} (hvain : m.Vain a) :
    (m.perform a).2.Inv limit := by
  cases a with
  | allocate c pcid =>
      show (m.allocate c pcid).2.Inv limit
      rw [h.allocate_eq]
      split
      · exact h
      · exact h.setPhase (.loading pcid)
  | deallocate c ind =>
      show (m.deallocate c ind).2.Inv limit
      rw [deallocate_vain hvain]
      exact h
  | advance c => exact h.advance hvain

theorem Reachable.inv (hm : Reachable Vain m₀ m) (h₀ : m₀.Inv limit) : m.Inv limit := by
  induction hm with
  | start => exact h₀
  | step a _ _ hvain ih => exact ih.perform hvain

/-! ## What holds of these runs -/

omit [DecidableEq κ] in
/-- With the cursor at the end, every handle is allocated. -/
theorem Inv.full (h : m.Inv limit) (hge : m.cursor ≥ m.maximum) {x : Nat} (hx : x < m.maximum) :
    m.live x = true := by
  have hmax := h.maximum
  exact (h.live x).mpr ⟨by omega, by omega⟩

theorem Inv.correct_advance (h : m.Inv limit) : m.Correct (.advance c) := by
  unfold Correct
  rw [show m.perform (.advance c) = m.advance c from rfl]
  rcases h.advance_cases with ⟨p, _, heq⟩ | ⟨hge, heq⟩ | ⟨pcid, _, ⟨hge, heq⟩ | ⟨_, heq⟩⟩
  · rw [heq]
    trivial
  · rw [heq]
    exact fun x hx => Or.inl (h.full hge hx)
  · rw [heq]
    exact fun x hx => Or.inl (h.full hge hx)
  · rw [heq]
    show m.live m.cursor = false
    rw [Bool.eq_false_iff]
    intro hlive
    exact absurd ((h.live _).mp hlive).1 (Nat.lt_irrefl _)

theorem Inv.correct (h : m.Inv limit) {a : Action κ} (hvain : m.Vain a) : m.Correct a := by
  cases a with
  | allocate c pcid =>
      unfold Correct
      rw [show m.perform (.allocate c pcid) = _ from h.allocate_eq]
      split_ifs
      · trivial
      · trivial
  | deallocate c ind =>
      unfold Correct
      rw [show m.perform (.deallocate c ind) = _ from deallocate_vain hvain]
      refine ⟨?_, nofun⟩
      rw [hvain.1]
  | advance c => exact h.correct_advance

/-- The entry is taken back whether or not it was ever given. -/
theorem deallocate_of_entry (hlt : ¬ ind < m.cursor) (hpid : (m.table ind).processId ≠ noProcess) :
    (m.deallocate c ind).1 = .deallocated ind true := by
  unfold deallocate
  rw [if_neg hlt]
  show (ite _ _ _ : Outcome × Machine κ).1 = _
  rw [if_neg hpid]
  show (ite _ _ _ : Outcome × Machine κ).1 = _
  split
  · rfl
  · rfl

/-- What is allocated is refused, and what never was is taken. -/
theorem Inv.vain_of_correct (h : m.Inv limit) (hcorrect : m.Correct (.deallocate c ind)) :
    m.Vain (.deallocate c ind) := by
  unfold Correct at hcorrect
  rw [show m.perform (.deallocate c ind) = m.deallocate c ind from rfl] at hcorrect
  by_cases hlt : ind < m.cursor
  · rw [deallocate, if_pos hlt] at hcorrect
    refine ⟨?_, fun hge => absurd hlt (Nat.not_lt.mpr hge)⟩
    rw [Bool.eq_false_iff]
    intro hlive
    exact Bool.noConfusion (hcorrect.1.mpr hlive)
  · have hdead : m.live ind = false := by
      rw [Bool.eq_false_iff]
      intro hlive
      exact hlt ((h.live ind).mp hlive).1
    refine ⟨hdead, fun _ => ?_⟩
    by_contra hpid
    have hout := deallocate_of_entry (c := c) hlt hpid
    obtain ⟨m', heq⟩ : ∃ m', m.deallocate c ind = (.deallocated ind true, m') :=
      ⟨_, Prod.ext hout rfl⟩
    rw [heq] at hcorrect
    rw [hcorrect.1.mp rfl] at hdead
    cases hdead

/-- One core on a table of one handle. -/
def single : Machine Unit := initial (fun _ => ⟨0, 0, 0⟩) 1

end Machine

end HandleTable

end Beelzebub
