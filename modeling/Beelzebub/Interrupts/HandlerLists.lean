import Beelzebub.Lib.Slots

/-!
# Lists of interrupt handlers

Every interrupt vector has a list of the nodes that are subscribed to it, by descending priority.
A node goes behind those of the same priority.  A node that is removed keeps its own link.

Any loop is run for so many rounds.
-/

namespace Beelzebub.Irqs

open Linked

/-! ## The code -/

inductive IrqSubscribeResult where
  | success
  | vectorOutOfRange
  | alreadySubscribed
  deriving DecidableEq

inductive IrqUnsubscribeResult where
  | success
  | notSubscribed
  deriving DecidableEq

/-- The heads of the lists and the links of the nodes, and the vectors of the nodes. -/
structure State (N : Type) where
  link : Links ℤ N
  isrVector : N → ℤ
  irqVector : N → ℤ

/-- `Interrupts::Count`. -/
def vectorCount : ℤ := 256

def irqsOffset : ℤ := 32

/-- `isr_invalid` and `irq_invalid`. -/
def invalid : ℤ := -1

variable {N : Type} [DecidableEq N] (priority : N → ℕ) (rounds : ℕ)

def addToList (l : Links ℤ N) (node : N) (first : Slot ℤ N) : Option (Links ℤ N) :=
  (seek l (fun m => priority m < priority node) rounds first).map fun slot => l.insert slot node

def removeFromList (l : Links ℤ N) (node : N) (first : Slot ℤ N) : Option (Bool × Links ℤ N) :=
  (seek l (fun m => m = node) rounds first).map fun slot =>
    if (l slot).isSome then (true, l.remove slot node) else (false, l)

namespace State

def isSubscribed (σ : State N) (node : N) : Bool :=
  σ.isrVector node ≠ invalid || σ.irqVector node ≠ invalid

/-- `Subscribe` to an interrupt vector.  A node is always added. -/
def subscribe (σ : State N) (node : N) (isr : ℤ) : Option (IrqSubscribeResult × State N) :=
  if isr < 0 ∨ isr ≥ vectorCount then some (.vectorOutOfRange, σ)
  else if σ.isSubscribed node then some (.alreadySubscribed, σ)
  else
    (addToList priority rounds σ.link node (.head isr)).map fun l =>
      (.success, { σ with
        link := l
        isrVector := Function.update σ.isrVector node isr })

/-- `Subscribe` to an IRQ. -/
def subscribeIrq (σ : State N) (node : N) (irq : ℤ) : Option (IrqSubscribeResult × State N) :=
  if irq < 0 ∨ irq ≥ 48 then some (.vectorOutOfRange, σ)
  else
    (σ.subscribe priority rounds node (irq + irqsOffset)).map fun (res, σ) =>
      if res = .success then (res, { σ with irqVector := Function.update σ.irqVector node irq })
      else (res, σ)

def unsubscribe (σ : State N) (node : N) : Option (IrqUnsubscribeResult × State N) :=
  if σ.isrVector node < 0 ∨ σ.isrVector node ≥ vectorCount then some (.notSubscribed, σ)
  else
    (removeFromList rounds σ.link node (.head (σ.isrVector node))).map fun (removed, l) =>
      if removed then
        (.success, {
          link := l
          isrVector := Function.update σ.isrVector node invalid
          irqVector := Function.update σ.irqVector node invalid })
      else (.success, { σ with link := l })

end State

/-! ## Histories -/

inductive Op (N : Type) where
  | subscribe (node : N) (isr : ℤ)
  | subscribeIrq (node : N) (irq : ℤ)
  | unsubscribe (node : N)

/-- For the record, how many calls there were, and at which of them each node was subscribed
last. -/
structure History (N : Type) extends State N where
  now : ℕ
  since : N → ℕ

def History.initial : History N where
  link _ := none
  isrVector _ := invalid
  irqVector _ := invalid
  now := 0
  since _ := 0

/-- What is known of a node after it was to be subscribed. -/
def History.subscribed (h : History N) (node : N) (r : IrqSubscribeResult × State N) :
    History N where
  toState := r.2
  now := h.now + 1
  since := if r.1 = .success then Function.update h.since node h.now else h.since

def History.unsubscribed (h : History N) (r : IrqUnsubscribeResult × State N) : History N where
  toState := r.2
  now := h.now + 1
  since := h.since

def History.step (h : History N) : Op N → Option (History N)
  | .subscribe node isr => (h.toState.subscribe priority rounds node isr).map (h.subscribed node)
  | .subscribeIrq node irq =>
      (h.toState.subscribeIrq priority rounds node irq).map (h.subscribed node)
  | .unsubscribe node =>
      (h.toState.unsubscribe rounds node).map h.unsubscribed

def History.run (h : History N) : List (Op N) → Option (History N)
  | [] => some h
  | op :: ops =>
      match h.step priority rounds op with
      | none => none
      | some h => h.run ops

/-! ## The lists -/

/-- A node comes ahead of another in a list. -/
def Ahead (since : N → ℕ) (n m : N) : Prop :=
  priority m < priority n ∨ priority n = priority m ∧ since n < since m

/-- The links make up these lists, one for each vector, of the nodes of the vector. -/
structure Lists (σ : State N) (lists : ℤ → List N) : Prop where
  holds : ∀ v, From σ.link (.head v) (lists v)
  mem : ∀ v n, n ∈ lists v ↔ (0 ≤ v ∧ v < vectorCount) ∧ σ.isrVector n = v
  valid : ∀ n, σ.isrVector n = invalid ∨ 0 ≤ σ.isrVector n ∧ σ.isrVector n < vectorCount
  irq : ∀ n, σ.isrVector n = invalid → σ.irqVector n = invalid

/-- And they are in order. -/
structure Ordered (h : History N) (lists : ℤ → List N) : Prop extends Lists h.toState lists where
  sorted : ∀ v, (lists v).Pairwise (Ahead priority h.since)
  past : ∀ v, ∀ n ∈ lists v, h.since n < h.now
  short : ∀ v, (lists v).length ≤ h.now

variable {priority rounds} {σ : State N} {lists : ℤ → List N} {n node : N} {v w isr : ℤ}
  {ys zs : List N}

/-! ## One call -/

omit [DecidableEq N] in
/-- A node is in no list but that of its vector. -/
theorem Lists.notMem (hl : Lists σ lists) (hn : σ.isrVector n = v) (hne : w ≠ v) :
    n ∉ lists w := fun hmem => hne (((hl.mem w n).mp hmem).2.symm.trans hn)

omit [DecidableEq N] in
/-- A node that is not subscribed is in no list. -/
theorem Lists.notMem_of_invalid (hl : Lists σ lists) (hn : σ.isrVector n = invalid) (v : ℤ) :
    n ∉ lists v := by
  intro hmem
  have hrange := (hl.mem v n).mp hmem
  rw [← hrange.2, hn] at hrange
  exact absurd hrange.1.1 (by decide)

omit [DecidableEq N] in
/-- A node is in its list once. -/
theorem Lists.notMem_rest (hl : Lists σ lists) (hlist : lists v = ys ++ n :: zs) :
    n ∉ ys ++ zs := by
  have hnodup := (hl.holds v).nodup
  rw [hlist] at hnodup
  exact (List.nodup_middle.mp hnodup).notMem

omit [DecidableEq N] in
theorem Lists.behind_ne_next (hl : Lists σ lists) (hlist : lists v = ys ++ zs) (hne : w ≠ v)
    (hn : n ∈ lists w) : Linked.behind (.head v) ys ≠ .next n := by
  rcases behind_eq (Slot.head v) ys with heq | ⟨y, hy, heq⟩
  · rw [heq]
    exact nofun
  · rw [heq]
    intro hnext
    have hmem : n ∈ lists v := by
      rw [hlist, ← Slot.next.inj hnext]
      exact List.mem_append_left zs hy
    exact hl.notMem ((hl.mem v n).mp hmem).2 hne hn

/-- The state after a node was put between others. -/
def State.inserted (σ : State N) (node : N) (isr : ℤ) (ys : List N) : State N where
  link := σ.link.insert (Linked.behind (.head isr) ys) node
  isrVector := Function.update σ.isrVector node isr
  irqVector := σ.irqVector

/-- The state after a node was taken from behind others. -/
def State.removed (σ : State N) (node : N) (ys : List N) : State N where
  link := σ.link.remove (Linked.behind (.head (σ.isrVector node)) ys) node
  isrVector := Function.update σ.isrVector node invalid
  irqVector := Function.update σ.irqVector node invalid

theorem Lists.inserted (hl : Lists σ lists) (hnode : σ.isrVector node = invalid)
    (hisr : 0 ≤ isr ∧ isr < vectorCount) (hlist : lists isr = ys ++ zs) :
    Lists (σ.inserted node isr ys) (Function.update lists isr (ys ++ node :: zs)) := by
  have hnew := hl.notMem_of_invalid hnode
  constructor
  case holds =>
    intro v
    by_cases hv : v = isr
    · subst hv
      rw [Function.update_self]
      have hfrom := hl.holds v
      rw [hlist] at hfrom
      refine hfrom.insert ?_ nofun fun _ _ => nofun
      rw [← hlist]
      exact hnew v
    · rw [Function.update_of_ne hv]
      refine (from_congr ?_ fun x hx => ?_).mpr (hl.holds v)
      · exact insert_of_ne nofun (behind_head_ne hv ys).symm
      · refine insert_of_ne ?_ (hl.behind_ne_next hlist hv hx).symm
        rintro heq
        cases heq
        exact hnew v hx
  case mem =>
    intro v m
    show _ ↔ _ ∧ Function.update σ.isrVector node isr m = v
    by_cases hm : m = node
    · subst hm
      rw [Function.update_self]
      by_cases hv : v = isr
      · subst hv
        rw [Function.update_self]
        exact iff_of_true (by simp) ⟨hisr, rfl⟩
      · rw [Function.update_of_ne hv]
        exact iff_of_false (hnew v) fun h => hv h.2.symm
    · rw [Function.update_of_ne hm, ← hl.mem]
      by_cases hv : v = isr
      · subst hv
        rw [Function.update_self, hlist]
        simp [hm]
      · rw [Function.update_of_ne hv]
  case valid =>
    intro m
    show Function.update σ.isrVector node isr m = invalid ∨
      _ ≤ Function.update σ.isrVector node isr m ∧ Function.update σ.isrVector node isr m < _
    by_cases hm : m = node
    · rw [hm, Function.update_self]
      exact .inr hisr
    · rw [Function.update_of_ne hm]
      exact hl.valid m
  case irq =>
    intro m hinvalid
    replace hinvalid : Function.update σ.isrVector node isr m = invalid := hinvalid
    by_cases hm : m = node
    · rw [hm, Function.update_self] at hinvalid
      rw [hinvalid] at hisr
      exact absurd hisr.1 (by decide)
    · rw [Function.update_of_ne hm] at hinvalid
      exact hl.irq m hinvalid

theorem Lists.removed (hl : Lists σ lists) (hlist : lists (σ.isrVector node) = ys ++ node :: zs) :
    Lists (σ.removed node ys) (Function.update lists (σ.isrVector node) (ys ++ zs)) := by
  have hin : node ∈ lists (σ.isrVector node) := by
    rw [hlist]
    simp
  have hrange := ((hl.mem _ node).mp hin).1
  constructor
  case holds =>
    intro v
    by_cases hv : v = σ.isrVector node
    · subst hv
      rw [Function.update_self]
      have hfrom := hl.holds (σ.isrVector node)
      rw [hlist] at hfrom
      exact hfrom.remove fun _ _ => nofun
    · rw [Function.update_of_ne hv]
      refine (from_congr ?_ fun x hx => ?_).mpr (hl.holds v)
      · exact remove_of_ne (behind_head_ne hv ys).symm
      · exact remove_of_ne (hl.behind_ne_next hlist hv hx).symm
  case mem =>
    intro v m
    show _ ↔ _ ∧ Function.update σ.isrVector node invalid m = v
    by_cases hm : m = node
    · subst hm
      rw [Function.update_self]
      refine iff_of_false (fun hmem => ?_) fun h => ?_
      · by_cases hv : v = σ.isrVector m
        · subst hv
          rw [Function.update_self] at hmem
          exact hl.notMem_rest hlist hmem
        · rw [Function.update_of_ne hv] at hmem
          exact hl.notMem rfl hv hmem
      · rw [← h.2] at h
        exact absurd h.1.1 (by decide)
    · rw [Function.update_of_ne hm, ← hl.mem]
      by_cases hv : v = σ.isrVector node
      · rw [hv, Function.update_self, hlist]
        simp [hm]
      · rw [Function.update_of_ne hv]
  case valid =>
    intro m
    show Function.update σ.isrVector node invalid m = invalid ∨
      _ ≤ Function.update σ.isrVector node invalid m ∧
        Function.update σ.isrVector node invalid m < _
    by_cases hm : m = node
    · rw [hm, Function.update_self]
      exact .inl rfl
    · rw [Function.update_of_ne hm]
      exact hl.valid m
  case irq =>
    intro m hinvalid
    show Function.update σ.irqVector node invalid m = invalid
    replace hinvalid : Function.update σ.isrVector node invalid m = invalid := hinvalid
    by_cases hm : m = node
    · rw [hm, Function.update_self]
    · rw [Function.update_of_ne hm] at hinvalid ⊢
      exact hl.irq m hinvalid

theorem Lists.subscribe (hl : Lists σ lists) (hrounds : ∀ v, (lists v).length < rounds) (node : N)
    (isr : ℤ) :
    (∃ res, res ≠ .success ∧ σ.subscribe priority rounds node isr = some (res, σ)) ∨
      (0 ≤ isr ∧ isr < vectorCount) ∧ σ.isrVector node = invalid ∧ ∃ ys zs,
        lists isr = ys ++ zs ∧ (∀ y ∈ ys, priority node ≤ priority y) ∧
        (∀ z ∈ zs.head?, priority z < priority node) ∧
        σ.subscribe priority rounds node isr = some (.success, σ.inserted node isr ys) := by
  unfold State.subscribe
  by_cases hrange : isr < 0 ∨ isr ≥ vectorCount
  · rw [if_pos hrange]
    exact .inl ⟨.vectorOutOfRange, nofun, rfl⟩
  · rw [if_neg hrange]
    cases hsub : σ.isSubscribed node with
    | true => exact .inl ⟨.alreadySubscribed, nofun, if_pos rfl⟩
    | false =>
        have hisr : 0 ≤ isr ∧ isr < vectorCount := by omega
        have hnode : σ.isrVector node = invalid := by
          unfold State.isSubscribed at hsub
          rw [Bool.or_eq_false_iff] at hsub
          exact not_not.mp (of_decide_eq_false hsub.1)
        obtain ⟨ys, zs, hlist, hys, hzs, hseek⟩ :=
          @From.seek ℤ N σ.link (.head isr) (lists isr) (fun m => priority m < priority node)
            (hl.holds isr) rounds (hrounds isr)
        refine .inr ⟨hisr, hnode, ys, zs, hlist, fun y hy => ?_, fun z hz => ?_, ?_⟩
        · exact Nat.le_of_not_lt (of_decide_eq_false (hys y hy))
        · exact of_decide_eq_true (hzs z hz)
        · unfold addToList
          rw [hseek]
          rfl

theorem Lists.unsubscribe (hl : Lists σ lists) (hrounds : ∀ v, (lists v).length < rounds)
    (node : N) :
    σ.isrVector node = invalid ∧ σ.unsubscribe rounds node = some (.notSubscribed, σ) ∨
      ∃ ys zs, lists (σ.isrVector node) = ys ++ node :: zs ∧
        σ.unsubscribe rounds node = some (.success, σ.removed node ys) := by
  unfold State.unsubscribe
  rcases hl.valid node with hinvalid | hrange
  · left
    rw [hinvalid, if_pos (.inl (by decide))]
    exact ⟨rfl, rfl⟩
  · right
    have hin : node ∈ lists (σ.isrVector node) := (hl.mem _ node).mpr ⟨hrange, rfl⟩
    have hfrom := hl.holds (σ.isrVector node)
    obtain ⟨ys, zs, hlist, hys, hzs, hseek⟩ :=
      @From.seek ℤ N σ.link (.head (σ.isrVector node)) (lists (σ.isrVector node))
        (fun m => m = node) hfrom rounds (hrounds _)
    rw [hlist] at hfrom hin
    cases zs with
    | nil =>
        rw [List.append_nil] at hin
        exact absurd rfl (of_decide_eq_false (hys node hin))
    | cons z zs =>
        obtain rfl : z = node := of_decide_eq_true (hzs z rfl)
        have hlink : (σ.link (Linked.behind (.head (σ.isrVector z)) ys)).isSome = true := by
          rw [hfrom.behind.head?]
          rfl
        refine ⟨ys, zs, hlist, ?_⟩
        unfold removeFromList
        rw [if_neg (by omega), hseek]
        dsimp only [Option.map_some]
        rw [if_pos hlink]
        rfl

/-! ## Order -/

variable {h h' : History N} {since : N → ℕ} {now : ℕ}

omit [DecidableEq N] in
theorem Ahead.le (hahead : Ahead priority since n node) : priority node ≤ priority n := by
  rcases hahead with hlt | ⟨heq, -⟩
  · exact Nat.le_of_lt hlt
  · exact Nat.le_of_eq heq.symm

/-- When a node was subscribed does not matter to a list without it. -/
theorem pairwise_update {xs : List N} (hsorted : xs.Pairwise (Ahead priority since))
    (hnode : node ∉ xs) : xs.Pairwise (Ahead priority (Function.update since node now)) := by
  have hsame : ∀ x ∈ xs, Function.update since node now x = since x := by
    intro x hx
    refine Function.update_of_ne ?_ _ _
    rintro rfl
    exact hnode hx
  refine hsorted.imp_of_mem fun {a b} ha hb hab => ?_
  unfold Ahead
  rw [hsame a ha, hsame b hb]
  exact hab

/-- A node that was subscribed later than the others is put where it belongs. -/
theorem pairwise_inserted (hsorted : (ys ++ zs).Pairwise (Ahead priority since))
    (hpast : ∀ y ∈ ys ++ zs, since y < now) (hys : ∀ y ∈ ys, priority node ≤ priority y)
    (hzs : ∀ z ∈ zs.head?, priority z < priority node) (hnode : node ∉ ys ++ zs) :
    (ys ++ node :: zs).Pairwise (Ahead priority (Function.update since node now)) := by
  have hold := @pairwise_update N _ priority node since now _ hsorted hnode
  have hne : ∀ y ∈ ys ++ zs, y ≠ node := fun y hy heq => hnode (heq ▸ hy)
  have hlower : ∀ z ∈ zs, priority z < priority node := by
    intro z hz
    cases zs with
    | nil => exact nomatch hz
    | cons first zs =>
        have hfirst := hzs first rfl
        rcases List.mem_cons.mp hz with rfl | hz
        · exact hfirst
        · have hrest := (List.pairwise_append.mp hsorted).2.1
          exact Nat.lt_of_le_of_lt ((List.pairwise_cons.mp hrest).1 z hz).le hfirst
  obtain ⟨hbefore, hafter, hcross⟩ := List.pairwise_append.mp hold
  refine List.pairwise_append.mpr ⟨hbefore, List.pairwise_cons.mpr ⟨fun z hz => ?_, hafter⟩, ?_⟩
  · exact .inl (hlower z hz)
  · intro y hy z hz
    rcases List.mem_cons.mp hz with rfl | hz
    · have hy' := List.mem_append_left zs hy
      rcases Nat.lt_or_eq_of_le (hys y hy) with hlt | heq
      · exact .inl hlt
      · refine .inr ⟨heq.symm, ?_⟩
        rw [Function.update_self, Function.update_of_ne (hne y hy')]
        exact hpast y hy'
    · exact hcross y hy z hz

omit [DecidableEq N] in
theorem Ordered.later (ho : Ordered priority h lists) :
    Ordered priority ⟨h.toState, h.now + 1, h.since⟩ lists where
  toLists := ho.toLists
  sorted := ho.sorted
  past v n hn := Nat.lt_succ_of_lt (ho.past v n hn)
  short v := Nat.le_succ_of_le (ho.short v)

theorem Ordered.inserted (ho : Ordered priority h lists) (hnode : h.isrVector node = invalid)
    (hisr : 0 ≤ isr ∧ isr < vectorCount) (hlist : lists isr = ys ++ zs)
    (hys : ∀ y ∈ ys, priority node ≤ priority y)
    (hzs : ∀ z ∈ zs.head?, priority z < priority node) (irqVector : N → ℤ)
    (hirq : ∀ n, Function.update h.isrVector node isr n = invalid → irqVector n = invalid) :
    Ordered priority
      ⟨{ h.toState.inserted node isr ys with irqVector := irqVector }, h.now + 1,
        Function.update h.since node h.now⟩
      (Function.update lists isr (ys ++ node :: zs)) := by
  have hl := ho.toLists.inserted hnode hisr hlist
  have hnew := ho.toLists.notMem_of_invalid hnode
  constructor
  case toLists =>
    constructor
    case holds => exact hl.holds
    case mem => exact hl.mem
    case valid => exact hl.valid
    case irq => exact hirq
  case sorted =>
    intro v
    by_cases hv : v = isr
    · rw [hv, Function.update_self]
      have hsorted := ho.sorted isr
      have hpast := ho.past isr
      have hnotin := hnew isr
      rw [hlist] at hsorted hpast hnotin
      exact pairwise_inserted hsorted hpast hys hzs hnotin
    · rw [Function.update_of_ne hv]
      exact pairwise_update (ho.sorted v) (hnew v)
  case past =>
    intro v n hn
    show Function.update h.since node h.now n < h.now + 1
    by_cases heq : n = node
    · rw [heq, Function.update_self]
      exact Nat.lt_succ_self _
    · have hold : n ∈ lists v := by
        by_cases hv : v = isr
        · rw [hv, Function.update_self] at hn
          rw [hv, hlist]
          simpa [heq] using hn
        · rwa [Function.update_of_ne hv] at hn
      rw [Function.update_of_ne heq]
      exact Nat.lt_succ_of_lt (ho.past v n hold)
  case short =>
    intro v
    by_cases hv : v = isr
    · have hshort := ho.short isr
      rw [hlist] at hshort
      rw [hv, Function.update_self]
      simp only [List.length_append, List.length_cons] at hshort ⊢
      exact Nat.succ_le_succ hshort
    · rw [Function.update_of_ne hv]
      exact Nat.le_succ_of_le (ho.short v)

theorem Ordered.removed (ho : Ordered priority h lists)
    (hlist : lists (h.isrVector node) = ys ++ node :: zs) :
    Ordered priority ⟨h.toState.removed node ys, h.now + 1, h.since⟩
      (Function.update lists (h.isrVector node) (ys ++ zs)) := by
  have hsub : ∀ v, (Function.update lists (h.isrVector node) (ys ++ zs) v).Sublist (lists v) := by
    intro v
    by_cases hv : v = h.isrVector node
    · rw [hv, Function.update_self, hlist]
      exact List.Sublist.append_left (List.sublist_cons_self node zs) ys
    · rw [Function.update_of_ne hv]
  constructor
  case toLists => exact ho.toLists.removed hlist
  case sorted => exact fun v => (ho.sorted v).sublist (hsub v)
  case past => exact fun v n hn => Nat.lt_succ_of_lt (ho.past v n ((hsub v).subset hn))
  case short => exact fun v => Nat.le_succ_of_le (Nat.le_trans (hsub v).length_le (ho.short v))

/-! ## Any history -/

/-- A call to subscribe, at a vector or at an IRQ with its vector, changes nothing but what is
counted, or puts the node where it belongs. -/
theorem Ordered.subscribed (ho : Ordered priority h lists) (isr : ℤ)
    {r : IrqSubscribeResult × State N}
    (hr : r.1 ≠ .success ∧ r.2 = h.toState ∨
      r.1 = .success ∧ (0 ≤ isr ∧ isr < vectorCount) ∧ h.isrVector node = invalid ∧
        ∃ ys zs irqVector, lists isr = ys ++ zs ∧ (∀ y ∈ ys, priority node ≤ priority y) ∧
          (∀ z ∈ zs.head?, priority z < priority node) ∧
          (∀ n, n ≠ node → irqVector n = h.irqVector n) ∧
          r.2 = { h.toState.inserted node isr ys with irqVector := irqVector }) :
    ∃ lists', Ordered priority (h.subscribed node r) lists' := by
  unfold History.subscribed
  rcases hr with ⟨hres, hstate⟩ |
    ⟨hres, hisr, hnode, ys, zs, irqVector, hlist, hys, hzs, hirq, hstate⟩
  · rw [if_neg hres, hstate]
    exact ⟨lists, ho.later⟩
  · rw [if_pos hres, hstate]
    refine ⟨_, ho.inserted hnode hisr hlist hys hzs irqVector fun n hn => ?_⟩
    have hne : n ≠ node := by
      rintro rfl
      rw [Function.update_self] at hn
      rw [hn] at hisr
      exact absurd hisr.1 (by decide)
    rw [Function.update_of_ne hne] at hn
    rw [hirq n hne]
    exact ho.irq n hn

/-- Any call keeps the lists in order. -/
theorem Ordered.step (ho : Ordered priority h lists) (hrounds : h.now < rounds) (op : Op N) :
    ∃ h' lists', h.step priority rounds op = some h' ∧ Ordered priority h' lists' ∧
      h'.now = h.now + 1 := by
  have hlength : ∀ v, (lists v).length < rounds := fun v => Nat.lt_of_le_of_lt (ho.short v) hrounds
  have hsubscribe := fun node isr =>
    @Lists.subscribe N _ priority rounds h.toState lists ho.toLists hlength node isr
  cases op with
  | subscribe node isr =>
      have hdone : ∃ r, h.toState.subscribe priority rounds node isr = some r ∧
          ∃ lists', Ordered priority (h.subscribed node r) lists' := by
        rcases hsubscribe node isr with
          ⟨res, hres, hsub⟩ | ⟨hisr, hnode, ys, zs, hlist, hys, hzs, hsub⟩
        · exact ⟨_, hsub, ho.subscribed isr (.inl ⟨hres, rfl⟩)⟩
        · exact ⟨_, hsub, ho.subscribed isr (.inr ⟨rfl, hisr, hnode, ys, zs, h.irqVector, hlist,
            hys, hzs, fun _ _ => rfl, rfl⟩)⟩
      obtain ⟨r, hr, lists', ho'⟩ := hdone
      exact ⟨_, lists', congrArg (Option.map (h.subscribed node)) hr, ho', rfl⟩
  | subscribeIrq node irq =>
      have hdone : ∃ r, h.toState.subscribeIrq priority rounds node irq = some r ∧
          ∃ lists', Ordered priority (h.subscribed node r) lists' := by
        unfold State.subscribeIrq
        by_cases hrange : irq < 0 ∨ irq ≥ 48
        · rw [if_pos hrange]
          exact ⟨_, rfl, ho.subscribed irq (.inl ⟨nofun, rfl⟩)⟩
        · rw [if_neg hrange]
          rcases hsubscribe node (irq + irqsOffset) with
            ⟨res, hres, hsub⟩ | ⟨hisr, hnode, ys, zs, hlist, hys, hzs, hsub⟩
          · rw [hsub]
            exact ⟨_, congrArg some (if_neg hres), ho.subscribed irq (.inl ⟨hres, rfl⟩)⟩
          · rw [hsub]
            exact ⟨_, rfl, ho.subscribed _ (.inr ⟨rfl, hisr, hnode, ys, zs,
              Function.update h.irqVector node irq, hlist, hys, hzs,
              fun n hne => Function.update_of_ne hne _ _, rfl⟩)⟩
      obtain ⟨r, hr, lists', ho'⟩ := hdone
      exact ⟨_, lists', congrArg (Option.map (h.subscribed node)) hr, ho', rfl⟩
  | unsubscribe node =>
      rcases ho.toLists.unsubscribe hlength node with ⟨-, hsub⟩ | ⟨ys, zs, hlist, hsub⟩
      · exact ⟨_, lists, congrArg (Option.map h.unsubscribed) hsub, ho.later, rfl⟩
      · exact ⟨_, _, congrArg (Option.map h.unsubscribed) hsub, ho.removed hlist, rfl⟩

omit [DecidableEq N] in
theorem ordered_initial : Ordered priority (History.initial : History N) fun _ => [] where
  holds _ := rfl
  mem v n := by
    refine iff_of_false (by simp) fun hmem => ?_
    rw [← hmem.2] at hmem
    exact absurd hmem.1.1 (by decide : ¬(0 : ℤ) ≤ -1)
  valid _ := .inl rfl
  irq _ _ := rfl
  sorted _ := .nil
  past _ _ := nofun
  short _ := Nat.le_refl 0

/-- And so does any history, if the loops have so many rounds. -/
theorem Ordered.run (ho : Ordered priority h lists) (ops : List (Op N))
    (hrounds : h.now + ops.length < rounds) :
    ∃ h' lists', h.run priority rounds ops = some h' ∧ Ordered priority h' lists' ∧
      h'.now = h.now + ops.length := by
  induction ops generalizing h lists with
  | nil => exact ⟨h, lists, rfl, ho, rfl⟩
  | cons op ops ih =>
      rw [List.length_cons] at hrounds ⊢
      have hlt : h.now < rounds := by omega
      obtain ⟨h₁, lists₁, hstep, ho₁, hnow₁⟩ := ho.step hlt op
      obtain ⟨h₂, lists₂, hrun, ho₂, hnow₂⟩ := ih ho₁ (by omega)
      refine ⟨h₂, lists₂, ?_, ho₂, by omega⟩
      rw [History.run, hstep]
      exact hrun

end Beelzebub.Irqs
