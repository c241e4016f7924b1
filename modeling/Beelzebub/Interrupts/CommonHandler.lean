import Beelzebub.Interrupts.HandlerLists

/-!
# Running the handlers of an interrupt

The handlers of a vector are called in the order of its list.  What a handler unsubscribes while it
runs changes the list: the link of its node is read after it.  That link is up to date for a node in
the list.  For one that was taken out it is what it was then, and where the next node was taken out
after it, the handler of that one is called all the same.
-/

namespace Beelzebub.Irqs

open Linked

/-! ## The code -/

variable {N : Type} [DecidableEq N] (rounds : ℕ)

/-- What a handler does: it unsubscribes nodes one after the other. -/
def State.unsubscribeAll : State N → List N → Option (State N)
  | σ, [] => some σ
  | σ, node :: nodes =>
      match σ.unsubscribe rounds node with
      | none => none
      | some (_, σ) => State.unsubscribeAll σ nodes

/-- A handler is called for its node, in a state. -/
structure Call (N : Type) where
  state : State N
  node : N

/-- The loop over the handlers, for so many rounds.  The script tells what the handler does that is
called at a count. -/
def walk (script : ℕ → List N) : ℕ → ℕ → State N → Option N → Option (List (Call N) × State N)
  | _, _, σ, none => some ([], σ)
  | 0, _, _, some _ => none
  | left + 1, counter, σ, some node =>
      match σ.unsubscribeAll rounds (script counter) with
      | none => none
      | some σ' =>
          (walk script left (counter + 1) σ' (σ'.link (.next node))).map fun r =>
            (⟨σ, node⟩ :: r.1, r.2)

def commonInterruptHandler (script : ℕ → List N) (σ : State N) (vector : ℤ) :
    Option (List (Call N) × State N) :=
  walk rounds script rounds 0 σ (σ.link (.head vector))

/-! ## What is to hold -/

/-- The nodes that stay subscribed were called once each in the order of the list, and only nodes
were called that were subscribed then. -/
structure Handled (vector : ℤ) (nodes : List N) (calls : List (Call N)) (σ : State N) : Prop where
  staying : (calls.map Call.node).filter (fun n => σ.isrVector n = vector) =
    nodes.filter fun n => σ.isrVector n = vector
  subscribed : ∀ call ∈ calls, call.state.isrVector call.node = vector

/-- A handler that unsubscribes its own node does not unsubscribe after it the one that is next
then. -/
def Spares (σ : State N) (node : N) (nodes : List N) : Prop :=
  ∀ before after, nodes = before ++ node :: after → node ∉ before →
    ∀ σ', σ.unsubscribeAll rounds before = some σ' →
      ∀ next, σ'.link (.next node) = some next → next ∉ after

/-! ## What a handler leaves -/

variable {rounds} {σ σ' : State N} {lists : ℤ → List N} {list : List N} {v : ℤ} {c n : N}
  {nodes : List N}

/-- Of a list from before, the nodes that are subscribed are in the list, and the link of any node
leads on to the first one behind it that is, or was when it was taken out. -/
structure Since (rounds : ℕ) (list : List N) (v : ℤ) (σ : State N) (lists : ℤ → List N) :
    Prop extends Lists σ lists where
  vector : 0 ≤ v ∧ v < vectorCount
  nodup : list.Nodup
  left : lists v = list.filter fun n => σ.isrVector n = v
  origin : ∀ n ∈ list, σ.isrVector n = v ∨ σ.isrVector n = invalid
  links : ∀ as c bs, list = as ++ c :: bs → ∃ bs₁ bs₂, bs = bs₁ ++ bs₂ ∧
    σ.link (.next c) = bs₂.head? ∧ ∀ b ∈ bs₁, σ.isrVector b ≠ v
  short : ∀ w, (lists w).length < rounds

/-- The nodes before the first one of a kind. -/
theorem exists_head?_filter {α : Type} (p : α → Bool) (bs : List α) :
    ∃ bs₁ bs₂, bs = bs₁ ++ bs₂ ∧ (bs.filter p).head? = bs₂.head? ∧ ∀ b ∈ bs₁, p b = false := by
  induction bs with
  | nil => exact ⟨[], [], rfl, rfl, nofun⟩
  | cons b bs ih =>
      cases hb : p b with
      | true => exact ⟨[], b :: bs, rfl, by rw [List.filter_cons_of_pos hb]; rfl, nofun⟩
      | false =>
          obtain ⟨bs₁, bs₂, rfl, hhead, hnone⟩ := ih
          refine ⟨b :: bs₁, bs₂, rfl, ?_, List.forall_mem_cons.mpr ⟨hb, hnone⟩⟩
          rw [List.filter_cons_of_neg (by rw [hb]; exact Bool.false_ne_true), hhead]

omit [DecidableEq N] in
/-- The link of a node in the list leads to the next one that is subscribed. -/
theorem Lists.link_next (hl : Lists σ lists)
    (hleft : lists v = list.filter fun n => σ.isrVector n = v) {as bs : List N}
    (hlist : list = as ++ c :: bs) (hc : σ.isrVector c = v) :
    σ.link (.next c) = (bs.filter fun n => σ.isrVector n = v).head? := by
  have hfrom := hl.holds v
  have hcons : (c :: bs).filter (fun n => decide (σ.isrVector n = v)) =
      c :: bs.filter fun n => σ.isrVector n = v := List.filter_cons_of_pos (decide_eq_true hc)
  rw [hleft, hlist, List.filter_append, hcons] at hfrom
  exact hfrom.behind.2.head?

theorem State.isrVector_removed (σ : State N) (n : N) (ys : List N) (m : N) :
    (σ.removed n ys).isrVector m = if m = n then invalid else σ.isrVector m := by
  show Function.update σ.isrVector n invalid m = _
  by_cases hm : m = n
  · rw [if_pos hm, hm, Function.update_self]
  · rw [if_neg hm, Function.update_of_ne hm]

/-- The link of a node that is not in the list stays as it is when another one is taken out. -/
theorem State.link_removed {ys : List N} (hc : c ∉ ys) :
    (σ.removed n ys).link (.next c) = σ.link (.next c) := by
  refine remove_of_ne fun hslot => ?_
  rcases behind_eq (Slot.head (σ.isrVector n)) ys with heq | ⟨y, hy, heq⟩
  · exact nomatch hslot.trans heq
  · rw [Slot.next.inj (hslot.trans heq)] at hc
    exact hc hy

omit [DecidableEq N] in
theorem Since.invalid_ne (hs : Since rounds list v σ lists) : invalid ≠ v := by
  rintro rfl
  exact absurd hs.vector.1 (by decide)

/-- A node that is taken out is not subscribed, and the others are as before. -/
theorem Since.isrVector_removed (hs : Since rounds list v σ lists) (n : N) (ys : List N) (m : N) :
    (σ.removed n ys).isrVector m = v ↔ σ.isrVector m = v ∧ m ≠ n := by
  rw [State.isrVector_removed]
  by_cases hm : m = n
  · rw [if_pos hm]
    exact iff_of_false hs.invalid_ne fun h => h.2 hm
  · rw [if_neg hm, and_iff_left hm]

/-- Of the list from before, one node fewer is left. -/
theorem Since.left_removed (hs : Since rounds list v σ lists) {ys zs : List N}
    (hlist : lists (σ.isrVector n) = ys ++ n :: zs) :
    Function.update lists (σ.isrVector n) (ys ++ zs) v =
      list.filter fun m => (σ.removed n ys).isrVector m = v := by
  have hfilter : (list.filter fun m => (σ.removed n ys).isrVector m = v) =
      (lists v).filter fun m => m ≠ n := by
    rw [hs.left, List.filter_filter]
    refine List.filter_congr fun m _ => ?_
    rw [← Bool.decide_and]
    exact decide_eq_decide.mpr ((hs.isrVector_removed n ys m).trans and_comm)
  have hall : ∀ xs : List N, n ∉ xs → (xs.filter fun m => m ≠ n) = xs := by
    intro xs hn
    refine List.filter_eq_self.mpr fun m hm => decide_eq_true ?_
    rintro rfl
    exact hn hm
  rw [hfilter]
  by_cases hv : v = σ.isrVector n
  · rw [hv, Function.update_self, hlist, List.filter_append, List.filter_cons_of_neg (by simp),
      ← List.filter_append]
    exact (hall _ (hs.toLists.notMem_rest hlist)).symm
  · rw [Function.update_of_ne hv]
    exact (hall _ (hs.notMem rfl hv)).symm

/-- The link of a node that was taken out before stays when another one is. -/
theorem Since.link_taken_out (hs : Since rounds list v σ lists) {ys zs : List N}
    (hlist : lists (σ.isrVector n) = ys ++ n :: zs) (hc : c = n ∨ σ.isrVector c = invalid) :
    (σ.removed n ys).link (.next c) = σ.link (.next c) := by
  refine State.link_removed fun hmem => ?_
  rcases hc with rfl | hinvalid
  · exact hs.toLists.notMem_rest hlist (List.mem_append_left zs hmem)
  · refine hs.toLists.notMem_of_invalid hinvalid (σ.isrVector n) ?_
    rw [hlist]
    exact List.mem_append_left _ hmem

/-- Where a handler unsubscribes a node, the links of the others stay as they were or lead on. -/
theorem Since.removed (hs : Since rounds list v σ lists) {ys zs : List N}
    (hlist : lists (σ.isrVector n) = ys ++ n :: zs) :
    Since rounds list v (σ.removed n ys)
      (Function.update lists (σ.isrVector n) (ys ++ zs)) := by
  have hl := hs.toLists.removed hlist
  constructor
  case toLists => exact hl
  case vector => exact hs.vector
  case nodup => exact hs.nodup
  case left => exact hs.left_removed hlist
  case origin =>
    intro m hm
    rw [State.isrVector_removed]
    by_cases heq : m = n
    · exact .inr (if_pos heq)
    · rw [if_neg heq]
      exact hs.origin m hm
  case links =>
    intro as c bs hsplit
    by_cases hc : (σ.removed n ys).isrVector c = v
    · obtain ⟨bs₁, bs₂, hbs, hhead, hnone⟩ :=
        exists_head?_filter (fun m => decide ((σ.removed n ys).isrVector m = v)) bs
      refine ⟨bs₁, bs₂, hbs, ?_, fun b hb => of_decide_eq_false (hnone b hb)⟩
      rw [← hhead]
      exact hl.link_next (hs.left_removed hlist) hsplit hc
    · obtain ⟨bs₁, bs₂, hbs, hhead, hnone⟩ := hs.links as c bs hsplit
      refine ⟨bs₁, bs₂, hbs, ?_, fun b hb h => ?_⟩
      · -- A node whose link the removal would change is in the list still.
        have hout : c = n ∨ σ.isrVector c = invalid := by
          by_cases hcn : c = n
          · exact .inl hcn
          · refine .inr ((hs.origin c (by rw [hsplit]; simp)).resolve_left fun hcv => ?_)
            exact hc ((hs.isrVector_removed n ys c).mpr ⟨hcv, hcn⟩)
        rw [hs.link_taken_out hlist hout]
        exact hhead
      · exact hnone b hb ((hs.isrVector_removed n ys b).mp h).1
  case short =>
    intro w
    have hshort := hs.short (σ.isrVector n)
    by_cases hw : w = σ.isrVector n
    · rw [hlist] at hshort
      rw [hw, Function.update_self]
      simp only [List.length_append, List.length_cons] at hshort ⊢
      omega
    · rw [Function.update_of_ne hw]
      exact hs.short w

/-- What unsubscribing nodes does to a list from before. -/
theorem Since.unsubscribeAll (hs : Since rounds list v σ lists) (nodes : List N) :
    ∃ σ' lists', σ.unsubscribeAll rounds nodes = some σ' ∧ Since rounds list v σ' lists' ∧
      (∀ m, σ'.isrVector m = if m ∈ nodes then invalid else σ.isrVector m) ∧
      ∀ m, σ.isrVector m = invalid → σ'.link (.next m) = σ.link (.next m) := by
  induction nodes generalizing σ lists with
  | nil => exact ⟨σ, lists, rfl, hs, fun m => rfl, fun m _ => rfl⟩
  | cons n nodes ih =>
      rcases hs.toLists.unsubscribe hs.short n with ⟨hinvalid, hsub⟩ | ⟨ys, zs, hlist, hsub⟩
      · obtain ⟨σ', lists', hrun, hs', hisr, hlink⟩ := ih hs
        refine ⟨σ', lists', ?_, hs', fun m => ?_, hlink⟩
        · rw [State.unsubscribeAll, hsub]
          exact hrun
        · rw [hisr]
          by_cases hm : m = n
          · rw [hm, hinvalid, ite_self, ite_self]
          · simp [hm]
      · obtain ⟨σ', lists', hrun, hs', hisr, hlink⟩ := ih (hs.removed hlist)
        refine ⟨σ', lists', ?_, hs', fun m => ?_, fun m hm => ?_⟩
        · rw [State.unsubscribeAll, hsub]
          exact hrun
        · rw [hisr, State.isrVector_removed]
          by_cases hm : m = n
          · simp [hm]
          · simp [hm]
        · have hinvalid : (σ.removed n ys).isrVector m = invalid := by
            rw [State.isrVector_removed, hm, ite_self]
          rw [hlink m hinvalid, hs.link_taken_out hlist (.inr hm)]

theorem State.unsubscribeAll_append (σ : State N) (before after : List N) :
    σ.unsubscribeAll rounds (before ++ after) =
      (σ.unsubscribeAll rounds before).bind fun σ => σ.unsubscribeAll rounds after := by
  induction before generalizing σ with
  | nil => rfl
  | cons n before ih =>
      rw [List.cons_append, State.unsubscribeAll, State.unsubscribeAll]
      cases σ.unsubscribe rounds n with
      | none => rfl
      | some r => exact ih r.2

omit [DecidableEq N] in
/-- The link of a subscribed node leads to a subscribed one. -/
theorem Since.next_subscribed (hs : Since rounds list v σ lists) (hmem : c ∈ list)
    (hc : σ.isrVector c = v) (hnext : σ.link (.next c) = some n) :
    σ.isrVector n = v ∧ n ≠ c := by
  obtain ⟨as, bs, hsplit⟩ := List.append_of_mem hmem
  rw [hs.link_next hs.left hsplit hc] at hnext
  obtain ⟨hn, hisr⟩ := List.mem_filter.mp (List.mem_of_mem_head? hnext)
  refine ⟨of_decide_eq_true hisr, ?_⟩
  rintro rfl
  have hnodup := hs.nodup
  rw [hsplit] at hnodup
  exact (List.nodup_cons.mp (List.nodup_append.mp hnodup).2.1).1 hn

/-- A node that is taken out keeps its link, and the node that the link leads to is subscribed
afterwards unless it was taken out too. -/
theorem Since.taken_out (hs : Since rounds list v σ lists) (hmem : c ∈ list)
    (hc : σ.isrVector c = v) {before after : List N} (hbefore : c ∉ before)
    (hrun : σ.unsubscribeAll rounds (before ++ c :: after) = some σ') :
    ∃ σ₁, σ.unsubscribeAll rounds before = some σ₁ ∧
      σ'.link (.next c) = σ₁.link (.next c) ∧
      ∀ next, σ₁.link (.next c) = some next → (next ∉ after ↔ σ'.isrVector next = v) := by
  obtain ⟨σ₁, lists₁, hrun₁, hs₁, hisr₁, -⟩ := hs.unsubscribeAll before
  have hc₁ : σ₁.isrVector c = v := by
    rw [hisr₁, if_neg hbefore]
    exact hc
  have hne := hs.invalid_ne
  rw [State.unsubscribeAll_append, hrun₁, Option.bind_some] at hrun
  refine ⟨σ₁, hrun₁, ?_, fun next hnext => ?_⟩
  · rcases hs₁.toLists.unsubscribe hs₁.short c with ⟨hinvalid, -⟩ | ⟨ys, zs, hlist, hsub⟩
    · exact absurd (hinvalid.symm.trans hc₁) hne
    · obtain ⟨σ₂, lists₂, hrun₂, -, -, hlink⟩ := (hs₁.removed hlist).unsubscribeAll after
      rw [State.unsubscribeAll, hsub] at hrun
      obtain rfl : σ₂ = σ' := Option.some.inj (hrun₂.symm.trans hrun)
      rw [hlink c (by rw [State.isrVector_removed, if_pos rfl]),
        hs₁.link_taken_out hlist (.inl rfl)]
  · obtain ⟨hnext₁, hnc⟩ := hs₁.next_subscribed hmem hc₁ hnext
    obtain ⟨σ₂, lists₂, hrun₂, -, hisr₂, -⟩ := hs₁.unsubscribeAll (c :: after)
    obtain rfl : σ₂ = σ' := Option.some.inj (hrun₂.symm.trans hrun)
    rw [hisr₂, hnext₁]
    by_cases hafter : next ∈ after
    · rw [if_pos (List.mem_cons_of_mem c hafter)]
      exact iff_of_false (fun h => h hafter) hne
    · rw [if_neg (by simp [hnc, hafter])]
      exact iff_of_true hafter rfl

/-- After a handler the next node is subscribed, if there is one, if and only if it was spared. -/
theorem Since.spares_iff (hs : Since rounds list v σ lists) (hmem : c ∈ list)
    (hc : σ.isrVector c = v) (hrun : σ.unsubscribeAll rounds nodes = some σ') :
    Spares rounds σ c nodes ↔ ∀ next, σ'.link (.next c) = some next → σ'.isrVector next = v := by
  by_cases hin : c ∈ nodes
  · constructor
    · intro hspares next hnext
      obtain ⟨before, after, rfl, hbefore⟩ := List.eq_append_cons_of_mem hin
      obtain ⟨σ₁, hrun₁, hlink, hiff⟩ := hs.taken_out hmem hc hbefore hrun
      rw [hlink] at hnext
      exact (hiff next hnext).mp (hspares before after rfl hbefore σ₁ hrun₁ next hnext)
    · rintro hsub before after rfl hbefore σ₁ hrun₁ next hnext
      obtain ⟨σ₂, hrun₂, hlink, hiff⟩ := hs.taken_out hmem hc hbefore hrun
      obtain rfl : σ₂ = σ₁ := Option.some.inj (hrun₂.symm.trans hrun₁)
      exact (hiff next hnext).mpr (hsub next (hlink.trans hnext))
  · refine iff_of_true (fun before after heq => ?_) fun next hnext => ?_
    · rw [heq] at hin
      exact absurd (List.mem_append_right before List.mem_cons_self) hin
    · obtain ⟨σ₁, lists₁, hrun₁, hs₁, hisr, -⟩ := hs.unsubscribeAll nodes
      obtain rfl : σ₁ = σ' := Option.some.inj (hrun₁.symm.trans hrun)
      have hc₁ : σ₁.isrVector c = v := by
        rw [hisr, if_neg hin]
        exact hc
      exact (hs₁.next_subscribed hmem hc₁ hnext).1

/-! ## The walk -/

/-- Every handler that is called from a count on spares the next node. -/
def AllSpare (rounds : ℕ) (script : ℕ → List N) (counter : ℕ) (calls : List (Call N)) : Prop :=
  ∀ k call, calls[k]? = some call → Spares rounds call.state call.node (script (counter + k))

variable {script : ℕ → List N} {counter left : ℕ} {call : Call N} {calls : List (Call N)}

theorem allSpare_cons :
    AllSpare rounds script counter (call :: calls) ↔
      Spares rounds call.state call.node (script counter) ∧
        AllSpare rounds script (counter + 1) calls := by
  constructor
  · intro h
    refine ⟨h 0 call rfl, fun k later hk => ?_⟩
    have hspares := h (k + 1) later hk
    rwa [← Nat.add_assoc, Nat.add_right_comm] at hspares
  · rintro ⟨hfirst, hrest⟩ k later hk
    cases k with
    | zero =>
        cases hk
        exact hfirst
    | succ k =>
        have hspares := hrest k later hk
        rwa [Nat.add_right_comm, Nat.add_assoc] at hspares

theorem walk_none : walk rounds script left counter σ none = some ([], σ) := by
  cases left <;> rfl

/-- A handler returns, and the walk goes on behind nodes that are not subscribed any more. -/
theorem Since.handled {as bs : List N} (hs : Since rounds list v σ lists)
    (hsplit : list = as ++ c :: bs) (nodes : List N) :
    ∃ σ₁ lists₁ bs₁ bs₂, σ.unsubscribeAll rounds nodes = some σ₁ ∧
      Since rounds list v σ₁ lists₁ ∧ bs = bs₁ ++ bs₂ ∧ σ₁.link (.next c) = bs₂.head? ∧
      (∀ b ∈ bs₁, σ₁.isrVector b ≠ v) ∧ (∀ n, σ₁.isrVector n = v → σ.isrVector n = v) ∧
      (σ.isrVector c = v →
        (Spares rounds σ c nodes ↔ ∀ y, bs₂.head? = some y → σ₁.isrVector y = v)) := by
  have hmem : c ∈ list := by
    rw [hsplit]
    simp
  obtain ⟨σ₁, lists₁, hrun, hs₁, hisr, -⟩ := hs.unsubscribeAll nodes
  obtain ⟨bs₁, bs₂, hbs, hlink, hnone⟩ := hs₁.links as c bs hsplit
  refine ⟨σ₁, lists₁, bs₁, bs₂, hrun, hs₁, hbs, hlink, hnone, fun n hnv => ?_, fun hc => ?_⟩
  · rw [hisr] at hnv
    split at hnv
    · exact absurd hnv hs.invalid_ne
    · exact hnv
  · rw [← hlink]
    exact hs.spares_iff hmem hc hrun

theorem filter_behind {α : Type} {p : α → Bool} {bs₁ bs₂ : List α}
    (h : ∀ b ∈ bs₁, p b = false) : (bs₁ ++ bs₂).filter p = bs₂.filter p := by
  have hnil : bs₁.filter p = [] := List.filter_eq_nil_iff.mpr fun b hb => by simp [h b hb]
  rw [List.filter_append, hnil, List.nil_append]

/-- From a node of the list on, the nodes that stay are called in order; and where the first one is
subscribed, all that are called are if and only if every handler spares the next node. -/
theorem Since.walk {as bs : List N} (hs : Since rounds list v σ lists)
    (hsplit : list = as ++ c :: bs) (hleft : bs.length < left) :
    ∃ calls σ', Irqs.walk rounds script left counter σ (some c) = some (⟨σ, c⟩ :: calls, σ') ∧
      (∀ n, σ'.isrVector n = v → σ.isrVector n = v) ∧
      ((c :: calls.map Call.node).filter fun n => σ'.isrVector n = v) =
        (c :: bs).filter (fun n => σ'.isrVector n = v) ∧
      (σ.isrVector c = v →
        ((∀ call ∈ calls, call.state.isrVector call.node = v) ↔
          AllSpare rounds script counter (⟨σ, c⟩ :: calls))) := by
  induction hn : bs.length using Nat.strongRecOn generalizing σ lists c as bs counter left with
  | ind length ih =>
      obtain ⟨left, rfl⟩ : ∃ n, left = n + 1 := ⟨left - 1, by omega⟩
      obtain ⟨σ₁, lists₁, bs₁, bs₂, hrun, hs₁, hbs, hlink, hnone, hback, hspares⟩ :=
        hs.handled hsplit (script counter)
      have hwalk : Irqs.walk rounds script (left + 1) counter σ (some c) =
          (Irqs.walk rounds script left (counter + 1) σ₁ bs₂.head?).map fun r =>
            (⟨σ, c⟩ :: r.1, r.2) := by
        rw [Irqs.walk, hrun, ← hlink]
      cases bs₂ with
      | nil =>
          refine ⟨[], σ₁, ?_, hback, ?_, fun hc => ?_⟩
          · rw [hwalk, List.head?_nil, walk_none]
            rfl
          · rw [List.filter_cons, List.filter_cons, hbs,
              filter_behind fun b hb => decide_eq_false (hnone b hb)]
            rfl
          · exact iff_of_true nofun (allSpare_cons.mpr ⟨(hspares hc).mpr nofun, nofun⟩)
      | cons y bs₃ =>
          have hsplit₁ : list = (as ++ c :: bs₁) ++ y :: bs₃ := by
            rw [hsplit, hbs, List.append_assoc]
            rfl
          have hlength : bs₃.length < length := by
            rw [← hn, hbs, List.length_append, List.length_cons]
            omega
          obtain ⟨calls, σ', hcalls, hback', hfilter, hiff⟩ :=
            @ih bs₃.length hlength σ₁ lists₁ y (counter + 1) left (as ++ c :: bs₁) bs₃ hs₁ hsplit₁
              (by omega) rfl
          refine ⟨⟨σ₁, y⟩ :: calls, σ', ?_, fun n hnv => hback n (hback' n hnv), ?_, fun hc => ?_⟩
          · rw [hwalk, List.head?_cons, hcalls]
            rfl
          · have hgone : ∀ b ∈ bs₁, σ'.isrVector b ≠ v := fun b hb h => hnone b hb (hback' b h)
            rw [List.map_cons, List.filter_cons, hfilter, List.filter_cons (x := c), hbs,
              filter_behind fun b hb => decide_eq_false (hgone b hb)]
          · rw [List.forall_mem_cons, allSpare_cons, hspares hc]
            by_cases hy : σ₁.isrVector y = v
            · rw [hiff hy, and_iff_right hy, and_iff_right]
              intro next hnext
              cases hnext
              exact hy
            · exact iff_of_false (fun h => hy h.1) fun h => hy (h.1 y rfl)

/-! ## Any interrupt after any history -/

variable {priority : N → ℕ} {h : History N}

omit [DecidableEq N] in
theorem Ordered.since (ho : Ordered priority h lists) (hrounds : h.now < rounds)
    (hv : 0 ≤ v ∧ v < vectorCount) : Since rounds (lists v) v h.toState lists := by
  have hisr : ∀ n ∈ lists v, h.isrVector n = v := fun n hn => ((ho.mem v n).mp hn).2
  have hleft : lists v = (lists v).filter fun n => h.isrVector n = v :=
    (List.filter_eq_self.mpr fun n hn => decide_eq_true (hisr n hn)).symm
  constructor
  case toLists => exact ho.toLists
  case vector => exact hv
  case nodup => exact (ho.holds v).nodup
  case left => exact hleft
  case origin => exact fun n hn => .inl (hisr n hn)
  case links =>
    intro as c bs hsplit
    have hc := hisr c (by rw [hsplit]; simp)
    obtain ⟨bs₁, bs₂, hbs, hhead, hnone⟩ :=
      exists_head?_filter (fun m => decide (h.isrVector m = v)) bs
    refine ⟨bs₁, bs₂, hbs, ?_, fun b hb => of_decide_eq_false (hnone b hb)⟩
    rw [← hhead]
    exact ho.toLists.link_next hleft hsplit hc
  case short => exact fun w => Nat.lt_of_le_of_lt (ho.short w) hrounds

/-- After any history the nodes of a vector are in its list by descending priority, and then in the
order in which they were subscribed.  Whatever the handlers unsubscribe, the loop over them ends,
and it does what it should if and only if every handler spares the next node. -/
theorem handled_iff_allSpare (priority : N → ℕ) (ops : List (Op N)) (script : ℕ → List N)
    (hv : 0 ≤ v ∧ v < vectorCount) (hrounds : ops.length < rounds) :
    ∃ h nodes calls σ', History.initial.run priority rounds ops = some h ∧
      From h.link (.head v) nodes ∧ nodes.Nodup ∧ nodes.Pairwise (Ahead priority h.since) ∧
      (∀ n, n ∈ nodes ↔ h.isrVector n = v) ∧
      commonInterruptHandler rounds script h.toState v = some (calls, σ') ∧
      (Handled v nodes calls σ' ↔ AllSpare rounds script 0 calls) := by
  obtain ⟨h, lists, hrun, ho, hnow⟩ := (@ordered_initial N priority).run ops
    (by rw [History.initial, Nat.zero_add]; exact hrounds)
  have hnow' : h.now < rounds := by
    rw [hnow, History.initial, Nat.zero_add]
    exact hrounds
  have hmem : ∀ n, n ∈ lists v ↔ h.isrVector n = v :=
    fun n => (ho.mem v n).trans (and_iff_right hv)
  have hs := ho.since hnow' hv
  have hfrom := ho.holds v
  have hlist := (ho.holds v).nodup
  have hsorted := ho.sorted v
  have hshort := ho.short v
  have hwalk : commonInterruptHandler rounds script h.toState v =
      walk rounds script rounds 0 h.toState (lists v).head? := congrArg _ hfrom.head?
  generalize lists v = nodes at hs hfrom hlist hsorted hmem hshort hwalk
  cases nodes with
  | nil =>
      refine ⟨h, [], [], h.toState, hrun, hfrom, hlist, hsorted, hmem, hwalk.trans walk_none, ?_⟩
      exact iff_of_true ⟨rfl, nofun⟩ nofun
  | cons c bs =>
      rw [List.length_cons] at hshort
      obtain ⟨calls, σ', hcalls, -, hfilter, hiff⟩ :=
        @Since.walk N _ rounds h.toState lists (c :: bs) v c script 0 rounds [] bs hs rfl (by omega)
      have hc : h.isrVector c = v := (hmem c).mp List.mem_cons_self
      refine ⟨h, c :: bs, ⟨h.toState, c⟩ :: calls, σ', hrun, hfrom, hlist, hsorted, hmem,
        hwalk.trans hcalls, ?_⟩
      rw [← hiff hc]
      constructor
      · exact fun hhandled => (List.forall_mem_cons.mp hhandled.subscribed).2
      · exact fun hsub => ⟨hfilter, List.forall_mem_cons.mpr ⟨hc, hsub⟩⟩

/-- Three nodes of one priority. -/
def threeNodes : List (Op ℕ) := [.subscribe 0 3, .subscribe 1 3, .subscribe 2 3]

theorem handled_iff_allSpare_three :
    ∃ h nodes calls σ', History.initial.run (fun _ => 0) 4 threeNodes = some h ∧
      From h.link (.head 3) nodes ∧ nodes.Nodup ∧ nodes.Pairwise (Ahead (fun _ => 0) h.since) ∧
      (∀ n, n ∈ nodes ↔ h.isrVector n = 3) ∧
      commonInterruptHandler 4 (fun _ => [1]) h.toState 3 = some (calls, σ') ∧
      (Handled 3 nodes calls σ' ↔ AllSpare 4 (fun _ => [1]) 0 calls) :=
  handled_iff_allSpare (fun _ => 0) threeNodes (fun _ => [1]) (by decide) (by decide)

/-- The first handler unsubscribes its node and then the second one, whose handler is called. -/
theorem not_handled :
    ¬ ∀ (priority : ℕ → ℕ) (rounds : ℕ) (ops : List (Op ℕ)) (script : ℕ → List ℕ) (v : ℤ),
      0 ≤ v ∧ v < vectorCount → ops.length < rounds →
        ∃ h nodes calls σ', History.initial.run priority rounds ops = some h ∧
          commonInterruptHandler rounds script h.toState v = some (calls, σ') ∧
          Handled v nodes calls σ' := by
  intro hclaim
  obtain ⟨h, nodes, calls, σ', hrun, hcalls, hhandled⟩ :=
    hclaim (fun _ => 0) 4 threeNodes (fun _ => [0, 1]) 3 (by decide) (by decide)
  have hsub : ((History.initial.run (fun _ => 0) 4 threeNodes).bind fun h =>
      (commonInterruptHandler 4 (fun _ => [0, 1]) h.toState 3).map fun r =>
        r.1.map fun call => decide (call.state.isrVector call.node = 3)) =
      some [true, false, true] := by decide
  rw [hrun, Option.bind_some, hcalls] at hsub
  have hcalled : (calls.map fun call => decide (call.state.isrVector call.node = 3)) =
      [true, false, true] := Option.some.inj hsub
  have hfalse : false ∈ calls.map fun call => decide (call.state.isrVector call.node = 3) := by
    rw [hcalled]
    decide
  obtain ⟨call, hcall, hnot⟩ := List.mem_map.mp hfalse
  exact of_decide_eq_false hnot (hhandled.subscribed call hcall)

end Beelzebub.Irqs
