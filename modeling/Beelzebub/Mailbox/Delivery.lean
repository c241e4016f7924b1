import Beelzebub.Mailbox.Maskable

/-!
# Delivery of maskable mail

The invariant keeps, for each core, the entries that its queue reaches, and for each entry
the number of destinations that still need it.
-/

namespace Beelzebub.Mailbox.Machine

variable {κ ε : Type} [DecidableEq κ] [DecidableEq ε] (mail : ε → Mail κ)

/-! ## The invariant -/

/-- The core needs nothing more from the entry. -/
def settled (m : Machine κ ε) (e : ε) (c : κ) : Bool :=
  if (mail e).await then decide (e ∈ (m.log c).completed) else decide (e ∈ (m.log c).taken)

/-- The calls of `ExecuteHead` on a core. -/
structure Calls (m : Machine κ ε) (c : κ) : Prop where
  /-- What was dequeued is done or in a call. -/
  taken : (m.log c).taken.Perm ((m.log c).completed ++ (m.frames c).map Frame.entry)
  /-- Only the innermost call can be before its function. -/
  executed : (m.log c).taken = (m.log c).executed ++ unrun (m.frames c)
  nested : ∀ f ∈ (m.frames c).tail, f.stage = .inside
  counted : ∀ f ∈ m.frames c, f.counted = (mail f.entry).await
  after : ∀ f ∈ m.frames c, f.stage = .after → f.counted = true

/-- What the queue of a core reaches. -/
structure Waiting (m : Machine κ ε) (c : κ) (queue : List ε) : Prop where
  chain : Linked.Chain (m.nextAt mail c) (m.mailHead c) queue
  tail : m.mailTail c = queue.getLast?
  linked : (m.log c).linked = (m.log c).taken ++ queue
  nodup : (m.log c).linked.Nodup
  unlinked : ∀ e, e ∉ (m.log c).linked → m.nextAt mail c e = none

structure Inv (m : Machine κ ε) (queue : κ → List ε) : Prop where
  waiting : ∀ c, m.Waiting mail c (queue c)
  calls : ∀ c, m.Calls mail c
  mem : ∀ c e, e ∈ (m.log c).linked ↔ ∃ i < m.progress mail e, (mail e).destinations[i]? = some c
  bound : ∀ e, m.progress mail e ≤ (mail e).destinations.length
  left : ∀ e, m.destinationsLeft e = (mail e).destinations.countP fun c => !m.settled mail e c
  returned : ∀ e, m.posting e = .returned → m.destinationsLeft e = 0

variable {mail} {m : Machine κ ε} {queue : κ → List ε} {c d : κ} {e : ε}

theorem inv_initial : (initial mail : Machine κ ε).Inv mail fun _ => [] := by
  refine ⟨?_, ?_, ?_, ?_, ?_, nofun⟩
  · intro c
    exact ⟨rfl, rfl, rfl, List.nodup_nil, fun _ _ => rfl⟩
  · intro c
    exact ⟨List.Perm.refl _, rfl, nofun, nofun, nofun⟩
  · intro c e
    constructor
    · intro he
      cases he
    · rintro ⟨i, hi, -⟩
      cases hi
  · intro e
    exact Nat.zero_le _
  · intro e
    show (mail e).destinations.length = _
    symm
    rw [List.countP_eq_length]
    intro c _
    unfold settled
    split
    · rfl
    · rfl

/-- An entry comes only to its destinations. -/
theorem Inv.mem_destinations (h : m.Inv mail queue) (he : e ∈ (m.log c).linked) :
    c ∈ (mail e).destinations := by
  obtain ⟨i, -, hi⟩ := (h.mem c e).mp he
  exact List.mem_of_getElem? hi

theorem Inv.mem_of_queue (h : m.Inv mail queue) (he : e ∈ queue c) : e ∈ (m.log c).linked := by
  rw [(h.waiting c).linked]
  exact List.mem_append_right _ he

omit [DecidableEq κ] [DecidableEq ε] in
/-- What is done was dequeued. -/
theorem Calls.mem_taken (h : m.Calls mail c) (he : e ∈ (m.log c).completed) :
    e ∈ (m.log c).taken :=
  h.taken.mem_iff.mpr (List.mem_append_left _ he)

theorem Inv.nodup_taken (h : m.Inv mail queue) (c : κ) : (m.log c).taken.Nodup := by
  have hnd := (h.waiting c).nodup
  rw [(h.waiting c).linked] at hnd
  exact (List.nodup_append.mp hnd).1

/-- An entry in a call is not done. -/
theorem Inv.not_completed (h : m.Inv mail queue) {f : Frame ε} (hf : f ∈ m.frames c) :
    f.entry ∉ (m.log c).completed := by
  have hnd := (h.calls c).taken.nodup_iff.mp (h.nodup_taken c)
  intro hmem
  exact (List.nodup_append.mp hnd).2.2 _ hmem _ (List.mem_map_of_mem hf) rfl

/-- The function of an entry that is done was called. -/
theorem Inv.executed_of_completed (h : m.Inv mail queue) (he : e ∈ (m.log c).completed) :
    e ∈ (m.log c).executed := by
  have htaken := (h.calls c).mem_taken he
  rw [(h.calls c).executed] at htaken
  rcases List.mem_append.mp htaken with hmem | hmem
  · exact hmem
  · cases hframes : m.frames c with
    | nil =>
        rw [hframes] at hmem
        cases hmem
    | cons f rest =>
        rw [hframes, unrun] at hmem
        split at hmem
        · rw [List.mem_singleton.mp hmem] at he
          exact absurd he (h.not_completed (by rw [hframes]; exact List.mem_cons_self))
        · cases hmem

/-- An entry in a queue is not settled there. -/
theorem Inv.not_settled_of_queue (h : m.Inv mail queue) (he : e ∈ queue c) :
    m.settled mail e c = false := by
  have hnd := (h.waiting c).nodup
  rw [(h.waiting c).linked] at hnd
  have hout : e ∉ (m.log c).taken := fun ht => (List.nodup_append.mp hnd).2.2 e ht e he rfl
  unfold settled
  split
  · exact decide_eq_false fun hc => hout ((h.calls c).mem_taken hc)
  · exact decide_eq_false hout

/-- A destination that still needs the entry is counted. -/
theorem Inv.left_pos (h : m.Inv mail queue) (hc : c ∈ (mail e).destinations)
    (hs : m.settled mail e c = false) : 0 < m.destinationsLeft e := by
  rw [h.left, List.countP_pos_iff]
  exact ⟨c, hc, by rw [hs]; rfl⟩

theorem Inv.left_lt (h : m.Inv mail queue) (e : ε) : m.destinationsLeft e < 2 ^ 32 := by
  rw [h.left]
  exact Nat.lt_of_le_of_lt List.countP_le_length (mail e).small

/-- One destination is settled: the count goes down by one. -/
theorem countP_settle {l : List κ} {f g : κ → Bool} (hnd : l.Nodup) (hc : c ∈ l)
    (hf : f c = false) (hg : g c = true) (hsame : ∀ d, d ≠ c → g d = f d) :
    (l.countP fun d => !g d) + 1 = l.countP fun d => !f d := by
  induction l with
  | nil => cases hc
  | cons d l ih =>
      rw [List.nodup_cons] at hnd
      rw [List.countP_cons, List.countP_cons]
      by_cases hdc : d = c
      · subst hdc
        have hrest : (l.countP fun d => !g d) = l.countP fun d => !f d := by
          refine List.countP_congr ?_
          intro x hx
          rw [hsame x]
          rintro rfl
          exact hnd.1 hx
        rw [hrest, hf, hg]
        rfl
      · have hmem := (List.mem_cons.mp hc).resolve_left fun heq => hdc heq.symm
        rw [hsame d hdc, ← ih hnd.2 hmem]
        omega

/-! ## What the invariant says -/

theorem Inv.toDelivers (h : m.Inv mail queue) : m.Delivers mail := by
  refine ⟨?_, ?_, ?_, ?_⟩
  · intro c
    have hw := h.waiting c
    refine ⟨queue c, hw.chain, hw.tail, ?_, ?_⟩
    · rw [hw.linked, (h.calls c).executed]
    · intro e he hret
      have hpos := h.left_pos (h.mem_destinations (h.mem_of_queue he)) (h.not_settled_of_queue he)
      rw [h.returned e hret] at hpos
      exact Nat.lt_irrefl 0 hpos
  · intro c
    exact ⟨(h.waiting c).nodup, h.mem c⟩
  · intro e hret c hc
    have hsettled : m.settled mail e c = true := by
      by_contra hs
      have hpos := h.left_pos hc (Bool.eq_false_iff.mpr hs)
      rw [h.returned e hret] at hpos
      exact Nat.lt_irrefl 0 hpos
    unfold settled at hsettled
    by_cases hawait : (mail e).await = true
    · rw [if_pos hawait] at hsettled
      have hcompleted := of_decide_eq_true hsettled
      refine ⟨(h.calls c).mem_taken hcompleted, fun _ => ⟨?_, hcompleted⟩⟩
      exact h.executed_of_completed hcompleted
    · rw [if_neg hawait] at hsettled
      exact ⟨of_decide_eq_true hsettled, fun hcontra => absurd hcontra hawait⟩
  · intro c tail htail count
    rw [(h.waiting c).tail] at htail
    have hmem := h.mem_destinations (h.mem_of_queue (List.mem_of_getLast? htail))
    rw [scan_of_mem (mail tail).distinct hmem _ _ (Nat.zero_le _)]
    split
    · exact nofun
    · exact nofun

/-! ## Posting -/

/-- `Post` begins or returns. -/
theorem Inv.setPosting (h : m.Inv mail queue) {p : Posting}
    (hprogress : (m.setPosting e p).progress mail e = m.progress mail e)
    (hreturned : p = .returned → m.destinationsLeft e = 0) :
    (m.setPosting e p).Inv mail queue := by
  have hsame : ∀ x, (m.setPosting e p).progress mail x = m.progress mail x := by
    intro x
    by_cases hx : x = e
    · rw [hx, hprogress]
    · show Posting.progress _ (Function.update m.posting e p x) = _
      rw [Function.update_of_ne hx]
      rfl
  refine ⟨?_, ?_, ?_, ?_, h.left, ?_⟩
  · intro c
    have hw := h.waiting c
    exact ⟨hw.chain, hw.tail, hw.linked, hw.nodup, hw.unlinked⟩
  · intro c
    have hc := h.calls c
    exact ⟨hc.taken, hc.executed, hc.nested, hc.counted, hc.after⟩
  · intro c x
    rw [hsame]
    exact h.mem c x
  · intro x
    rw [hsame]
    exact h.bound x
  · intro x hx
    change Function.update m.posting e p x = .returned at hx
    by_cases hxe : x = e
    · subst hxe
      rw [Function.update_self] at hx
      exact hreturned hx
    · rw [Function.update_of_ne hxe] at hx
      exact h.returned x hx

variable (mail) in
/-- What the locked section of `PostInternal` does. -/
structure LinksTo (m : Machine κ ε) (e : ε) (c : κ) (last : Option ε) (m' : Machine κ ε) : Prop where
  log : m'.log = Function.update m.log c { m.log c with linked := (m.log c).linked ++ [e] }
  tail : m'.mailTail = Function.update m.mailTail c (some e)
  head : m'.mailHead = Function.update m.mailHead c ((m.mailHead c).or (some e))
  next : ∀ d x, m'.nextAt mail d x = if d = c ∧ last = some x then some e else m.nextAt mail d x
  frames : m'.frames = m.frames
  left : m'.destinationsLeft = m.destinationsLeft
  posting : m'.posting = m.posting

/-- The links of one core in an entry are not those of another. -/
theorem nextAt_setNext (hc : c ∈ (mail e).destinations) {x : ε} {next : Option ε} :
    (m.setNext e ((mail e).destinations.idxOf c) next).nextAt mail d x =
      if d = c ∧ x = e then next else m.nextAt mail d x := by
  unfold nextAt Machine.setNext
  by_cases hx : x = e
  · subst hx
    dsimp only
    rw [Function.update_self]
    by_cases hd : d = c
    · subst hd
      rw [Function.update_self, if_pos ⟨rfl, rfl⟩]
    · rw [Function.update_of_ne, if_neg fun h => hd h.1]
      intro heq
      exact hd ((List.idxOf_inj hc).mp heq.symm).symm
  · dsimp only
    rw [Function.update_of_ne hx, if_neg fun h => hx h.2]

/-- The record of a link. -/
def noteLinked (e : ε) (c : κ) (m : Machine κ ε) : Machine κ ε :=
  m.note c fun l => { l with linked := l.linked ++ [e] }

theorem linkTo_none (htail : m.mailTail c = none) :
    m.linkTo mail e c = ((m.noteLinked e c).setHead c (some e)).setTail c (some e) := by
  unfold Machine.linkTo
  dsimp only
  rw [show (m.note c _).mailTail c = none from htail]
  rfl

theorem linkTo_some {t : ε} {j : Nat} (htail : m.mailTail c = some t)
    (hscan : scan (mail t).destinations c (mail e).destinations.length 0 = .here j) :
    m.linkTo mail e c = ((m.noteLinked e c).setNext t j (some e)).setTail c (some e) := by
  unfold Machine.linkTo
  dsimp only
  rw [show (m.note c _).mailTail c = some t from htail]
  dsimp only
  rw [hscan]
  rfl

/-- The poster finds the link of the core in the last entry. -/
theorem Inv.linkTo (h : m.Inv mail queue)
    (hfit : ∀ tail, m.mailTail c = some tail →
      (mail tail).destinations.idxOf c < (mail e).destinations.length) :
    m.LinksTo mail e c (queue c).getLast? (m.linkTo mail e c) := by
  have hw := h.waiting c
  have hhead := hw.chain.head?
  cases htail : m.mailTail c with
  | none =>
      have hlast : (queue c).getLast? = none := hw.tail.symm.trans htail
      rw [List.getLast?_eq_none_iff.mp hlast] at hhead
      rw [linkTo_none htail, hlast]
      refine ⟨rfl, rfl, ?_, ?_, rfl, rfl, rfl⟩
      · rw [hhead]
        rfl
      · intro d x
        rw [if_neg (by rintro ⟨-, hx⟩; cases hx)]
        rfl
  | some t =>
      have hlast : (queue c).getLast? = some t := hw.tail.symm.trans htail
      have hmem := List.mem_of_getLast? hlast
      have hct := h.mem_destinations (h.mem_of_queue hmem)
      have hscan : scan (mail t).destinations c (mail e).destinations.length 0 =
          .here ((mail t).destinations.idxOf c) := by
        rw [scan_of_mem (mail t).distinct hct _ _ (Nat.zero_le _), Nat.zero_add, if_pos (hfit t htail)]
      rw [linkTo_some htail hscan, hlast]
      refine ⟨rfl, rfl, ?_, ?_, rfl, rfl, rfl⟩
      · obtain ⟨y, l, hyl⟩ := List.exists_cons_of_ne_nil (List.ne_nil_of_mem hmem)
        rw [hyl] at hhead
        rw [hhead]
        show m.mailHead = Function.update m.mailHead c (some y)
        rw [← (show m.mailHead c = some y from hhead), Function.update_eq_self]
      · intro d x
        refine (nextAt_setNext hct).trans ?_
        congr 1
        rw [Option.some_inj, eq_comm (a := x)]

/-- The queue of the target has the entry at its end. -/
theorem LinksTo.waiting {m' : Machine κ ε} {l : List ε} (hw : m.Waiting mail c l)
    (hlink : m.LinksTo mail e c l.getLast? m') (hout : e ∉ (m.log c).linked) :
    m'.Waiting mail c (l ++ [e]) := by
  have hlog : m'.log c = { m.log c with linked := (m.log c).linked ++ [e] } := by
    rw [hlink.log, Function.update_self]
  have hin : ∀ x ∈ l, x ∈ (m.log c).linked := by
    intro x hx
    rw [hw.linked]
    exact List.mem_append_right _ hx
  have hlast : ∀ x, x ∉ (m.log c).linked → l.getLast? ≠ some x := by
    intro x hx hl
    exact hx (hin x (List.mem_of_getLast? hl))
  have hnext_out : ∀ x, x ∉ (m.log c).linked → m'.nextAt mail c x = none := by
    intro x hx
    rw [hlink.next, if_neg fun hl => hlast x hx hl.2]
    exact hw.unlinked x hx
  refine ⟨?_, ?_, ?_, ?_, ?_⟩
  · rw [hlink.head, Function.update_self]
    have hchain := hw.chain
    have hnd := hw.nodup
    rw [hw.linked] at hnd
    rcases List.eq_nil_or_concat l with rfl | ⟨xs, t, rfl⟩
    · rw [Linked.chain_nil.mp hchain]
      exact ⟨rfl, hnext_out e hout⟩
    · rw [List.concat_eq_append] at *
      have hhead : (m.mailHead c).or (some e) = m.mailHead c := by
        rw [hchain.head?]
        cases xs with
        | nil => rfl
        | cons x xs => rfl
      rw [hhead]
      refine hchain.concat ?_ ?_ (hnext_out e hout)
      · intro x hx
        rw [hlink.next, if_neg]
        rintro ⟨-, hl⟩
        rw [List.getLast?_concat, Option.some_inj] at hl
        have hnd' := (List.nodup_append.mp (List.nodup_append.mp hnd).2.1).2.2
        exact hnd' x hx t List.mem_cons_self hl.symm
      · rw [hlink.next, List.getLast?_concat, if_pos ⟨rfl, rfl⟩]
  · rw [hlink.tail, Function.update_self, List.getLast?_concat]
  · rw [hlog]
    show (m.log c).linked ++ [e] = (m.log c).taken ++ (l ++ [e])
    rw [hw.linked, List.append_assoc]
  · rw [hlog]
    show ((m.log c).linked ++ [e]).Nodup
    rw [List.nodup_append_comm, List.singleton_append, List.nodup_cons]
    exact ⟨hout, hw.nodup⟩
  · intro x hx
    rw [hlog] at hx
    exact hnext_out x fun hmem => hx (List.mem_append_left _ hmem)

/-- The queue of another core is as before. -/
theorem LinksTo.waiting_of_ne {m' : Machine κ ε} {l : List ε} {last : Option ε}
    (hw : m.Waiting mail d l) (hlink : m.LinksTo mail e c last m') (hd : d ≠ c) :
    m'.Waiting mail d l := by
  have hlog : m'.log d = m.log d := by rw [hlink.log, Function.update_of_ne hd]
  have hnext : ∀ x, m'.nextAt mail d x = m.nextAt mail d x := by
    intro x
    rw [hlink.next, if_neg fun h => hd h.1]
  refine ⟨?_, ?_, ?_, ?_, ?_⟩
  · rw [hlink.head, Function.update_of_ne hd]
    exact (Linked.chain_congr fun x _ => hnext x).mpr hw.chain
  · rw [hlink.tail, Function.update_of_ne hd, hw.tail]
  · rw [hlog, hw.linked]
  · rw [hlog]
    exact hw.nodup
  · intro x hx
    rw [hlog] at hx
    rw [hnext]
    exact hw.unlinked x hx

omit [DecidableEq κ] [DecidableEq ε] in
/-- The calls of a core depend on its frames and what it has dequeued. -/
theorem Calls.congr {m' : Machine κ ε} (h : m.Calls mail c) (hframes : m'.frames c = m.frames c)
    (htaken : (m'.log c).taken = (m.log c).taken)
    (hexecuted : (m'.log c).executed = (m.log c).executed)
    (hcompleted : (m'.log c).completed = (m.log c).completed) : m'.Calls mail c := by
  refine ⟨?_, ?_, ?_, ?_, ?_⟩
  · rw [htaken, hcompleted, hframes]
    exact h.taken
  · rw [htaken, hexecuted, hframes]
    exact h.executed
  · rw [hframes]
    exact h.nested
  · rw [hframes]
    exact h.counted
  · rw [hframes]
    exact h.after

/-- Linking an entry to its next destination. -/
theorem Inv.link (h : m.Inv mail queue) {i : Nat} (hpost : m.posting e = .linking i)
    (hi : i < (mail e).destinations.length) (hfit : m.Fit mail (.link e)) :
    ∃ queue', (m.link mail e).Inv mail queue' := by
  obtain ⟨c, hc⟩ : ∃ c, (mail e).destinations[i]? = some c :=
    ⟨_, List.getElem?_eq_getElem hi⟩
  have hlink := h.linkTo (c := c) (e := e) fun tail => hfit i c tail hpost hc
  have hprogress : m.progress mail e = i := by
    rw [progress, hpost]
    rfl
  -- the destination stands at one place, which has not been reached before
  have hplace : ∀ j, (mail e).destinations[j]? = some c → j = i := by
    intro j hj
    obtain ⟨hjlt, -⟩ := List.getElem?_eq_some_iff.mp hj
    exact (List.getElem?_inj hjlt (mail e).distinct).mp (hj.trans hc.symm)
  have hout : e ∉ (m.log c).linked := by
    intro he
    obtain ⟨j, hj, hjc⟩ := (h.mem c e).mp he
    rw [hprogress, hplace j hjc] at hj
    exact Nat.lt_irrefl i hj
  have heq : m.link mail e = (m.linkTo mail e c).setPosting e (.linking (i + 1)) := by
    unfold Machine.link
    rw [hpost]
    dsimp only
    rw [hc]
  rw [heq]
  generalize m.linkTo mail e c = m' at hlink
  have hlog_c : m'.log c = { m.log c with linked := (m.log c).linked ++ [e] } := by
    rw [hlink.log, Function.update_self]
  have hlog_of : ∀ d, d ≠ c → m'.log d = m.log d := by
    intro d hd
    rw [hlink.log, Function.update_of_ne hd]
  have hrest : ∀ d, (m'.log d).taken = (m.log d).taken ∧
      (m'.log d).executed = (m.log d).executed ∧ (m'.log d).completed = (m.log d).completed := by
    intro d
    by_cases hd : d = c
    · rw [hd, hlog_c]
      exact ⟨rfl, rfl, rfl⟩
    · rw [hlog_of d hd]
      exact ⟨rfl, rfl, rfl⟩
  have hprogress' : ∀ x, (m'.setPosting e (.linking (i + 1))).progress mail x =
      if x = e then i + 1 else m.progress mail x := by
    intro x
    show Posting.progress _ (Function.update m'.posting e _ x) = _
    by_cases hx : x = e
    · rw [hx, Function.update_self, if_pos rfl]
      rfl
    · rw [Function.update_of_ne hx, if_neg hx, hlink.posting]
      rfl
  refine ⟨Function.update queue c (queue c ++ [e]), ?_, ?_, ?_, ?_, ?_, ?_⟩
  · intro d
    have hwaiting : m'.Waiting mail d (Function.update queue c (queue c ++ [e]) d) := by
      by_cases hd : d = c
      · subst hd
        rw [Function.update_self]
        exact hlink.waiting (h.waiting d) hout
      · rw [Function.update_of_ne hd]
        exact hlink.waiting_of_ne (h.waiting d) hd
    exact ⟨hwaiting.chain, hwaiting.tail, hwaiting.linked, hwaiting.nodup, hwaiting.unlinked⟩
  · intro d
    obtain ⟨h1, h2, h3⟩ := hrest d
    exact (h.calls d).congr (congrFun hlink.frames d) h1 h2 h3
  · intro d x
    show x ∈ (m'.log d).linked ↔ _
    rw [hprogress']
    by_cases hx : x = e
    · subst hx
      rw [if_pos rfl]
      by_cases hd : d = c
      · subst hd
        rw [hlog_c]
        exact ⟨fun _ => ⟨i, Nat.lt_succ_self i, hc⟩, fun _ => by simp⟩
      · rw [hlog_of d hd, h.mem, hprogress]
        constructor
        · rintro ⟨j, hj, hjd⟩
          exact ⟨j, by omega, hjd⟩
        · rintro ⟨j, hj, hjd⟩
          refine ⟨j, ?_, hjd⟩
          have hne : j ≠ i := by
            rintro rfl
            rw [hc] at hjd
            exact hd (Option.some.inj hjd).symm
          omega
    · rw [if_neg hx, ← h.mem]
      by_cases hd : d = c
      · subst hd
        rw [hlog_c]
        simp [hx]
      · rw [hlog_of d hd]
  · intro x
    rw [hprogress']
    split
    · rename_i hx
      rw [hx]
      exact hi
    · exact h.bound x
  · intro x
    show m'.destinationsLeft x = (mail x).destinations.countP fun d => !m'.settled mail x d
    have hsettled : ∀ d, m'.settled mail x d = m.settled mail x d := by
      intro d
      unfold settled
      rw [(hrest d).1, (hrest d).2.2]
    simp only [hsettled, hlink.left]
    exact h.left x
  · intro x hx
    show m'.destinationsLeft x = 0
    change Function.update m'.posting e _ x = _ at hx
    rw [hlink.left]
    by_cases hxe : x = e
    · rw [hxe, Function.update_self] at hx
      cases hx
    · rw [Function.update_of_ne hxe, hlink.posting] at hx
      exact h.returned x hx

/-! ## Dequeueing -/

variable (mail) in
/-- What the locked section of `ExecuteHead` does when there is mail. -/
structure Dequeues (m : Machine κ ε) (c : κ) (e : ε) (rest : List ε) (m' : Machine κ ε) : Prop where
  log : m'.log = Function.update m.log c { m.log c with taken := (m.log c).taken ++ [e] }
  head : m'.mailHead = Function.update m.mailHead c rest.head?
  tail : m'.mailTail = Function.update m.mailTail c rest.getLast?
  frames : m'.frames = Function.update m.frames c (⟨e, (mail e).await, .before⟩ :: m.frames c)
  left : m'.destinationsLeft =
    if (mail e).await then m.destinationsLeft else (m.decrement e).destinationsLeft
  next : m'.next = m.next
  posting : m'.posting = m.posting

theorem Inv.dequeues (h : m.Inv mail queue) {rest : List ε} (hq : queue c = e :: rest) :
    m.Dequeues mail c e rest (m.dequeue mail c) := by
  have hw := h.waiting c
  have hchain := hw.chain
  have htail := hw.tail
  rw [hq] at hchain htail
  obtain ⟨hhead, hrest⟩ := hchain
  have hmem := h.mem_destinations (h.mem_of_queue (by rw [hq]; exact List.mem_cons_self) : e ∈ _)
  have hnext : m.next e ((mail e).destinations.idxOf c) = rest.head? := hrest.head?
  have hscan : scan (mail e).destinations c (mail e).destinations.length 0 =
      .here ((mail e).destinations.idxOf c) := by
    rw [scan_of_mem (mail e).distinct hmem _ _ (Nat.zero_le _), Nat.zero_add,
      if_pos (List.idxOf_lt_length_iff.mpr hmem)]
  have hnew : ∃ m' : Machine κ ε, m.dequeue mail c = m'.clearTail c ∧
      m'.log = Function.update m.log c { m.log c with taken := (m.log c).taken ++ [e] } ∧
      m'.mailHead = Function.update m.mailHead c rest.head? ∧ m'.mailTail = m.mailTail ∧
      m'.frames = Function.update m.frames c (⟨e, (mail e).await, .before⟩ :: m.frames c) ∧
      m'.destinationsLeft =
        (if (mail e).await then m.destinationsLeft else (m.decrement e).destinationsLeft) ∧
      m'.next = m.next ∧ m'.posting = m.posting := by
    unfold Machine.dequeue
    rw [hhead]
    dsimp only
    rw [hscan]
    refine ⟨_, rfl, ?_⟩
    unfold Machine.unlink
    rw [← hnext]
    cases (mail e).await with
    | true => exact ⟨rfl, rfl, rfl, rfl, rfl, rfl, rfl⟩
    | false => exact ⟨rfl, rfl, rfl, rfl, rfl, rfl, rfl⟩
  obtain ⟨m', heq, hlog, hhead', htail', hframes, hleft, hnext', hposting⟩ := hnew
  rw [heq]
  unfold Machine.clearTail
  cases rest with
  | nil =>
      rw [if_pos (by rw [hhead', Function.update_self]; rfl)]
      refine ⟨hlog, hhead', ?_, hframes, hleft, hnext', hposting⟩
      show Function.update m'.mailTail c none = _
      rw [htail']
      rfl
  | cons x rest =>
      rw [if_neg (by rw [hhead', Function.update_self]; exact nofun)]
      refine ⟨hlog, hhead', ?_, hframes, hleft, hnext', hposting⟩
      rw [List.getLast?_cons_cons] at htail
      rw [htail', ← htail, Function.update_eq_self]

/-- A decrement for a destination that had not been settled. -/
theorem Inv.decrement_left (h : m.Inv mail queue) (hc : c ∈ (mail e).destinations)
    (hs : m.settled mail e c = false) {m' : Machine κ ε} (hs' : m'.settled mail e c = true)
    (hsame : ∀ d, d ≠ c → m'.settled mail e d = m.settled mail e d) :
    (m.destinationsLeft e + 0xFFFFFFFF) % 2 ^ 32 =
      (mail e).destinations.countP fun d => !m'.settled mail e d := by
  have hcount := countP_settle (mail e).distinct hc hs hs' hsame
  rw [← h.left e] at hcount
  have hlt := h.left_lt e
  omega

theorem Dequeues.waiting {rest : List ε} {m' : Machine κ ε} (hw : m.Waiting mail c (e :: rest))
    (hdeq : m.Dequeues mail c e rest m') : m'.Waiting mail c rest := by
  have hlog : m'.log c = { m.log c with taken := (m.log c).taken ++ [e] } := by
    rw [hdeq.log, Function.update_self]
  have hnext : m'.nextAt mail c = m.nextAt mail c := by
    funext x
    unfold nextAt
    rw [hdeq.next]
  refine ⟨?_, ?_, ?_, ?_, ?_⟩
  · rw [hnext, hdeq.head, Function.update_self, ← hw.chain.2.head?]
    exact hw.chain.2
  · rw [hdeq.tail, Function.update_self]
  · rw [hlog]
    show (m.log c).linked = (m.log c).taken ++ [e] ++ rest
    rw [hw.linked, List.append_assoc]
    rfl
  · rw [hlog]
    exact hw.nodup
  · intro x hx
    rw [hlog] at hx
    rw [hnext]
    exact hw.unlinked x hx

/-- The core begins a call for the entry. -/
theorem Dequeues.calls {rest : List ε} {m' : Machine κ ε} (hcalls : m.Calls mail c)
    (hdeq : m.Dequeues mail c e rest m') (hinside : ∀ f ∈ (m.frames c).head?, f.stage = .inside) :
    m'.Calls mail c := by
  have hlog : m'.log c = { m.log c with taken := (m.log c).taken ++ [e] } := by
    rw [hdeq.log, Function.update_self]
  have hframes : m'.frames c = ⟨e, (mail e).await, .before⟩ :: m.frames c := by
    rw [hdeq.frames, Function.update_self]
  have hunrun : unrun (m.frames c) = [] := by
    cases hf : m.frames c with
    | nil => rfl
    | cons f rest =>
        rw [unrun, if_neg]
        rw [hinside f (by rw [hf]; rfl)]
        exact nofun
  refine ⟨?_, ?_, ?_, ?_, ?_⟩
  · rw [hlog, hframes]
    show ((m.log c).taken ++ [e]).Perm ((m.log c).completed ++ e :: (m.frames c).map Frame.entry)
    refine (List.perm_append_singleton e _).trans ?_
    exact (hcalls.taken.cons e).trans List.perm_middle.symm
  · rw [hlog, hframes]
    show (m.log c).taken ++ [e] = (m.log c).executed ++ [e]
    rw [hcalls.executed, hunrun, List.append_nil]
  · rw [hframes]
    intro f hf
    change f ∈ m.frames c at hf
    cases hfr : m.frames c with
    | nil =>
        rw [hfr] at hf
        cases hf
    | cons g rest =>
        rw [hfr] at hf
        rcases List.mem_cons.mp hf with rfl | hf
        · exact hinside f (by rw [hfr]; rfl)
        · exact hcalls.nested f (by rw [hfr]; exact hf)
  · rw [hframes]
    intro f hf
    rcases List.mem_cons.mp hf with rfl | hf
    · rfl
    · exact hcalls.counted f hf
  · rw [hframes]
    intro f hf hafter
    rcases List.mem_cons.mp hf with rfl | hf
    · cases hafter
    · exact hcalls.after f hf hafter

theorem Inv.dequeue (h : m.Inv mail queue) (henabled : m.Enabled mail (.dequeue c)) :
    ∃ queue', (m.dequeue mail c).Inv mail queue' := by
  cases hq : queue c with
  | nil =>
      have hhead := (h.waiting c).chain
      rw [hq, Linked.chain_nil] at hhead
      refine ⟨queue, ?_⟩
      unfold Machine.dequeue
      rw [hhead]
      exact h
  | cons e rest =>
      have hdeq := h.dequeues hq
      have hin : e ∈ queue c := by
        rw [hq]
        exact List.mem_cons_self
      have hc := h.mem_destinations (h.mem_of_queue hin)
      have hs := h.not_settled_of_queue hin
      generalize m.dequeue mail c = m' at hdeq
      have hlog_c : m'.log c = { m.log c with taken := (m.log c).taken ++ [e] } := by
        rw [hdeq.log, Function.update_self]
      have hlog_of : ∀ d, d ≠ c → m'.log d = m.log d := by
        intro d hd
        rw [hdeq.log, Function.update_of_ne hd]
      have hlinked : ∀ d, (m'.log d).linked = (m.log d).linked := by
        intro d
        by_cases hd : d = c
        · rw [hd, hlog_c]
        · rw [hlog_of d hd]
      have hprogress : ∀ x, m'.progress mail x = m.progress mail x := by
        intro x
        unfold progress
        rw [hdeq.posting]
      have hsettled : ∀ x d, x ≠ e ∨ d ≠ c ∨ (mail x).await = true →
          m'.settled mail x d = m.settled mail x d := by
        intro x d hne
        unfold settled
        by_cases hd : d = c
        · subst hd
          rw [hlog_c]
          rcases hne with hne | hne | hne
          · simp [hne]
          · exact absurd rfl hne
          · rw [if_pos hne, if_pos hne]
        · rw [hlog_of d hd]
      have hleft : ∀ x, m'.destinationsLeft x =
          (mail x).destinations.countP fun d => !m'.settled mail x d := by
        intro x
        rw [hdeq.left]
        by_cases hxe : x = e ∧ (mail e).await = false
        · obtain ⟨rfl, hawait⟩ := hxe
          rw [if_neg (by rw [hawait]; exact Bool.false_ne_true)]
          show Function.update m.destinationsLeft x _ x = _
          rw [Function.update_self]
          refine h.decrement_left hc hs ?_ fun d hd => hsettled x d (Or.inr (Or.inl hd))
          unfold settled
          rw [hlog_c, if_neg (by rw [hawait]; exact Bool.false_ne_true)]
          simp
        · have hsame : ∀ d, m'.settled mail x d = m.settled mail x d := by
            intro d
            refine hsettled x d ?_
            by_cases hx : x = e
            · subst hx
              have hawait : (mail x).await = true := by
                by_contra hne
                exact hxe ⟨rfl, Bool.eq_false_iff.mpr hne⟩
              exact Or.inr (Or.inr hawait)
            · exact Or.inl hx
          simp only [hsame]
          rw [← h.left x]
          split
          · rfl
          · rename_i hawait
            refine Function.update_of_ne ?_ ..
            rintro rfl
            exact hxe ⟨rfl, Bool.eq_false_iff.mpr hawait⟩
      refine ⟨Function.update queue c rest, ?_, ?_, ?_, ?_, hleft, ?_⟩
      · intro d
        by_cases hd : d = c
        · subst hd
          rw [Function.update_self]
          exact hdeq.waiting (hq ▸ h.waiting d)
        · rw [Function.update_of_ne hd]
          have hw := h.waiting d
          have hnext : m'.nextAt mail d = m.nextAt mail d := by
            funext x
            unfold nextAt
            rw [hdeq.next]
          refine ⟨?_, ?_, ?_, ?_, ?_⟩
          · rw [hnext, hdeq.head, Function.update_of_ne hd]
            exact hw.chain
          · rw [hdeq.tail, Function.update_of_ne hd, hw.tail]
          · rw [hlog_of d hd, hw.linked]
          · rw [hlog_of d hd]
            exact hw.nodup
          · intro x hx
            rw [hlog_of d hd] at hx
            rw [hnext]
            exact hw.unlinked x hx
      · intro d
        by_cases hd : d = c
        · subst hd
          exact hdeq.calls (h.calls d) henabled
        · have hframes : m'.frames d = m.frames d := by
            rw [hdeq.frames, Function.update_of_ne hd]
          exact (h.calls d).congr hframes (by rw [hlog_of d hd]) (by rw [hlog_of d hd])
            (by rw [hlog_of d hd])
      · intro d x
        rw [hlinked, hprogress]
        exact h.mem d x
      · intro x
        rw [hprogress]
        exact h.bound x
      · intro x hx
        rw [hdeq.posting] at hx
        have hzero := h.returned x hx
        have hne : x ≠ e := by
          rintro rfl
          have hpos := h.left_pos hc hs
          omega
        rw [hdeq.left]
        split
        · exact hzero
        · exact (Function.update_of_ne hne ..).trans hzero

/-! ## Running -/

/-- A step of a call leaves the queues. -/
theorem Inv.of_calls (h : m.Inv mail queue) {m' : Machine κ ε} (hnext : m'.next = m.next)
    (hhead : m'.mailHead = m.mailHead) (htail : m'.mailTail = m.mailTail)
    (hposting : m'.posting = m.posting)
    (hlog : ∀ d, (m'.log d).linked = (m.log d).linked ∧ (m'.log d).taken = (m.log d).taken)
    (hcalls : ∀ d, m'.Calls mail d)
    (hleft : ∀ x, m'.destinationsLeft x =
      (mail x).destinations.countP fun d => !m'.settled mail x d)
    (hreturned : ∀ x, m.posting x = .returned → m'.destinationsLeft x = 0) :
    m'.Inv mail queue := by
  have hprogress : ∀ x, m'.progress mail x = m.progress mail x := by
    intro x
    unfold progress
    rw [hposting]
  have hnextAt : ∀ d, m'.nextAt mail d = m.nextAt mail d := by
    intro d
    funext x
    unfold nextAt
    rw [hnext]
  refine ⟨?_, hcalls, ?_, ?_, hleft, ?_⟩
  · intro d
    have hw := h.waiting d
    refine ⟨?_, ?_, ?_, ?_, ?_⟩
    · rw [hnextAt, hhead]
      exact hw.chain
    · rw [htail, hw.tail]
    · rw [(hlog d).1, (hlog d).2, hw.linked]
    · rw [(hlog d).1]
      exact hw.nodup
    · rw [(hlog d).1, hnextAt]
      exact hw.unlinked
  · intro d x
    rw [(hlog d).1, hprogress]
    exact h.mem d x
  · intro x
    rw [hprogress]
    exact h.bound x
  · intro x hx
    rw [hposting] at hx
    exact hreturned x hx

/-- Frames and log of one core after a step of a call. -/
def onCore (c : κ) (frames : List (Frame ε)) (f : Log ε → Log ε) (m : Machine κ ε) :
    Machine κ ε :=
  (m.setFrames c frames).note c f

omit [DecidableEq ε] in
theorem onCore_frames (frames : List (Frame ε)) (f : Log ε → Log ε) :
    (m.onCore c frames f).frames d = if d = c then frames else m.frames d := by
  show Function.update m.frames c frames d = _
  by_cases hd : d = c
  · rw [hd, Function.update_self, if_pos rfl]
  · rw [Function.update_of_ne hd, if_neg hd]

omit [DecidableEq ε] in
theorem onCore_log (frames : List (Frame ε)) (f : Log ε → Log ε) :
    (m.onCore c frames f).log d = if d = c then f (m.log c) else m.log d := by
  show Function.update m.log c _ d = _
  by_cases hd : d = c
  · rw [hd, Function.update_self, if_pos rfl]
    rfl
  · rw [Function.update_of_ne hd, if_neg hd]

omit [DecidableEq ε] in
/-- The calls of all cores after a step of one. -/
theorem calls_onCore (h : ∀ d, m.Calls mail d) {frames : List (Frame ε)} {f : Log ε → Log ε}
    (hc : (m.onCore c frames f).Calls mail c) (d : κ) : (m.onCore c frames f).Calls mail d := by
  by_cases hd : d = c
  · rw [hd]
    exact hc
  · have hlog : (m.onCore c frames f).log d = m.log d := by rw [onCore_log, if_neg hd]
    refine (h d).congr ?_ ?_ ?_ ?_
    · rw [onCore_frames, if_neg hd]
    · rw [hlog]
    · rw [hlog]
    · rw [hlog]

omit [DecidableEq κ] [DecidableEq ε] in
theorem unrun_of_inside {frames : List (Frame ε)} (h : ∀ f ∈ frames, f.stage = .inside) :
    unrun frames = [] := by
  cases frames with
  | nil => rfl
  | cons f rest =>
      rw [unrun, if_neg]
      rw [h f List.mem_cons_self]
      exact nofun

omit [DecidableEq ε] in
/-- A call ends. -/
theorem Calls.pop (h : m.Calls mail c) {f : Frame ε} {rest : List (Frame ε)}
    (hframes : m.frames c = f :: rest) (hstage : f.stage ≠ .before) :
    (m.onCore c rest fun l => { l with completed := l.completed ++ [f.entry] }).Calls mail c := by
  have hrest : ∀ g ∈ rest, g.stage = .inside := by
    intro g hg
    exact h.nested g (by rw [hframes]; exact hg)
  have hin : ∀ g ∈ rest, g ∈ m.frames c := by
    intro g hg
    rw [hframes]
    exact List.mem_cons_of_mem _ hg
  have htaken := h.taken
  have hexecuted := h.executed
  rw [hframes] at htaken hexecuted
  rw [unrun, if_neg hstage, List.append_nil] at hexecuted
  refine ⟨?_, ?_, ?_, ?_, ?_⟩
  · rw [onCore_log, onCore_frames, if_pos rfl, if_pos rfl]
    show (m.log c).taken.Perm (((m.log c).completed ++ [f.entry]) ++ rest.map Frame.entry)
    rw [List.append_assoc]
    exact htaken
  · rw [onCore_log, onCore_frames, if_pos rfl, if_pos rfl, unrun_of_inside hrest, List.append_nil]
    exact hexecuted
  · rw [onCore_frames, if_pos rfl]
    exact fun g hg => hrest g (List.mem_of_mem_tail hg)
  · rw [onCore_frames, if_pos rfl]
    exact fun g hg => h.counted g (hin g hg)
  · rw [onCore_frames, if_pos rfl]
    exact fun g hg => h.after g (hin g hg)

omit [DecidableEq ε] in
/-- A call goes on to its next stage. -/
theorem Calls.enter (h : m.Calls mail c) {f : Frame ε} {rest : List (Frame ε)}
    (hframes : m.frames c = f :: rest) {stage : Stage} (hstage : stage ≠ .before)
    (hafter : stage = .after → f.counted = true) {g : Log ε → Log ε}
    (hlog : (g (m.log c)).taken = (m.log c).taken ∧
      (g (m.log c)).completed = (m.log c).completed ∧
      (g (m.log c)).executed = (m.log c).executed ++ unrun (m.frames c)) :
    (m.onCore c ({ f with stage } :: rest) g).Calls mail c := by
  have htaken := h.taken
  rw [hframes] at htaken
  refine ⟨?_, ?_, ?_, ?_, ?_⟩
  · rw [onCore_log, onCore_frames, if_pos rfl, if_pos rfl, hlog.1, hlog.2.1]
    exact htaken
  · rw [onCore_log, onCore_frames, if_pos rfl, if_pos rfl, hlog.1, hlog.2.2, unrun, if_neg hstage,
      List.append_nil]
    exact h.executed
  · rw [onCore_frames, if_pos rfl]
    exact fun g hg => h.nested g (by rw [hframes]; exact hg)
  · rw [onCore_frames, if_pos rfl]
    intro g hg
    rcases List.mem_cons.mp hg with rfl | hg
    · exact h.counted f (by rw [hframes]; exact List.mem_cons_self)
    · exact h.counted g (by rw [hframes]; exact List.mem_cons_of_mem _ hg)
  · rw [onCore_frames, if_pos rfl]
    intro g hg hst
    rcases List.mem_cons.mp hg with rfl | hg
    · exact hafter hst
    · exact h.after g (by rw [hframes]; exact List.mem_cons_of_mem _ hg) hst

/-- Only the entry that the call is done with can become settled. -/
theorem settled_onCore {frames : List (Frame ε)} {f : Log ε → Log ε} {x : ε}
    (htaken : (f (m.log c)).taken = (m.log c).taken)
    (hsame : d ≠ c ∨ (mail x).await = false ∨
      (x ∈ (f (m.log c)).completed ↔ x ∈ (m.log c).completed)) :
    (m.onCore c frames f).settled mail x d = m.settled mail x d := by
  unfold settled
  rw [onCore_log]
  by_cases hd : d = c
  · subst hd
    rw [if_pos rfl, htaken]
    rcases hsame with hne | hawait | hiff
    · exact absurd rfl hne
    · rw [hawait]
      rfl
    · simp only [hiff]
  · rw [if_neg hd]

/-- A step of a call after which no more entry is settled. -/
theorem Inv.onCore (h : m.Inv mail queue) {frames : List (Frame ε)} {f : Log ε → Log ε}
    (hcalls : (m.onCore c frames f).Calls mail c)
    (hlinked : (f (m.log c)).linked = (m.log c).linked)
    (htaken : (f (m.log c)).taken = (m.log c).taken)
    (hsame : ∀ x, (mail x).await = false ∨
      (x ∈ (f (m.log c)).completed ↔ x ∈ (m.log c).completed)) :
    (m.onCore c frames f).Inv mail queue := by
  refine h.of_calls rfl rfl rfl rfl ?_ (calls_onCore h.calls hcalls) ?_ h.returned
  · intro d
    rw [onCore_log]
    split
    · rename_i hd
      rw [hd]
      exact ⟨hlinked, htaken⟩
    · exact ⟨rfl, rfl⟩
  · intro x
    show m.destinationsLeft x = _
    rw [h.left]
    refine List.countP_congr fun d _ => ?_
    rw [settled_onCore htaken (Or.inr (hsame x))]

omit [DecidableEq ε] in
theorem setFrames_eq_onCore (frames : List (Frame ε)) :
    m.setFrames c frames = m.onCore c frames fun l => l := by
  unfold Machine.onCore note
  rw [Function.update_eq_self]

/-- The destination is done with an entry that is awaited. -/
theorem Inv.complete (h : m.Inv mail queue) {f : Frame ε} {rest : List (Frame ε)}
    (hframes : m.frames c = f :: rest) (hstage : f.stage = .after) :
    ((m.decrement f.entry).onCore c rest fun l =>
      { l with completed := l.completed ++ [f.entry] }).Inv mail queue := by
  have hf : f ∈ m.frames c := by
    rw [hframes]
    exact List.mem_cons_self
  have hcalls := h.calls c
  have hawait : (mail f.entry).await = true :=
    (hcalls.counted f hf).symm.trans (hcalls.after f hf hstage)
  have hc : c ∈ (mail f.entry).destinations := by
    refine h.mem_destinations ?_
    rw [(h.waiting c).linked]
    refine List.mem_append_left _ (hcalls.taken.mem_iff.mpr ?_)
    exact List.mem_append_right _ (List.mem_map_of_mem hf)
  have hs : m.settled mail f.entry c = false := by
    unfold settled
    rw [if_pos hawait]
    exact decide_eq_false (h.not_completed hf)
  have hdecr : ∀ d, (m.decrement f.entry).Calls mail d := fun d => (h.calls d).congr rfl rfl rfl rfl
  have hpop := (hdecr c).pop hframes (by rw [hstage]; exact nofun)
  refine h.of_calls rfl rfl rfl rfl ?_ (calls_onCore hdecr hpop) ?_ ?_
  · intro d
    rw [onCore_log]
    split
    · rename_i hd
      rw [hd]
      exact ⟨rfl, rfl⟩
    · exact ⟨rfl, rfl⟩
  · intro x
    show Function.update m.destinationsLeft f.entry _ x = _
    by_cases hx : x = f.entry
    · subst hx
      rw [Function.update_self]
      refine h.decrement_left hc hs ?_ ?_
      · unfold settled
        rw [onCore_log, if_pos rfl, if_pos hawait]
        exact decide_eq_true (List.mem_append_right _ List.mem_cons_self)
      · intro d hd
        exact (settled_onCore (m := m.decrement f.entry) rfl (Or.inl hd))
    · rw [Function.update_of_ne hx, h.left]
      refine List.countP_congr fun d _ => ?_
      have hsame : m.settled mail x d = (m.decrement f.entry).settled mail x d := rfl
      rw [hsame, settled_onCore rfl]
      refine Or.inr (Or.inr ?_)
      show x ∈ (m.log c).completed ++ [f.entry] ↔ x ∈ (m.log c).completed
      simp [hx]
  · intro x hx
    show Function.update m.destinationsLeft f.entry _ x = 0
    have hzero := h.returned x hx
    rw [Function.update_of_ne]
    · exact hzero
    · rintro rfl
      have hpos := h.left_pos hc hs
      omega

theorem Inv.advance (h : m.Inv mail queue) : (m.advance c).Inv mail queue := by
  unfold Machine.advance
  cases hframes : m.frames c with
  | nil => exact h
  | cons f rest =>
      have hf : f ∈ m.frames c := by
        rw [hframes]
        exact List.mem_cons_self
      dsimp only
      cases hstage : f.stage with
      | before =>
          have hunrun : unrun (m.frames c) = [f.entry] := by
            rw [hframes, unrun, if_pos hstage]
          have hne : Stage.inside ≠ .before := nofun
          have hcalls : (m.onCore c ({ f with stage := .inside } :: rest) fun l =>
              { l with executed := l.executed ++ [f.entry] }).Calls mail c := by
            refine (h.calls c).enter hframes hne nofun ⟨rfl, rfl, ?_⟩
            rw [hunrun]
          exact h.onCore hcalls rfl rfl fun x => Or.inr Iff.rfl
      | inside =>
          dsimp only
          have hunrun : unrun (m.frames c) = [] := by
            rw [hframes, unrun, if_neg]
            rw [hstage]
            exact nofun
          split
          · rename_i hcounted
            have hne : Stage.after ≠ .before := nofun
            have hcalls : (m.onCore c ({ f with stage := .after } :: rest) fun l => l).Calls mail
                c := by
              refine (h.calls c).enter hframes hne (fun _ => hcounted) ⟨rfl, rfl, ?_⟩
              rw [hunrun, List.append_nil]
            rw [setFrames_eq_onCore]
            exact h.onCore hcalls rfl rfl fun x => Or.inr Iff.rfl
          · rename_i hcounted
            have hawait : (mail f.entry).await = false := by
              rw [← (h.calls c).counted f hf]
              exact Bool.eq_false_iff.mpr hcounted
            refine h.onCore ((h.calls c).pop hframes (by rw [hstage]; exact nofun)) rfl rfl ?_
            intro x
            by_cases hx : x = f.entry
            · rw [hx]
              exact Or.inl hawait
            · refine Or.inr ?_
              show x ∈ (m.log c).completed ++ [f.entry] ↔ x ∈ (m.log c).completed
              simp [hx]
      | after => exact h.complete hframes hstage

/-! ## Runs -/

theorem Inv.perform (h : m.Inv mail queue) {a : Action κ ε} (henabled : m.Enabled mail a)
    (hfit : m.Fit mail a) : ∃ queue', (m.perform mail a).Inv mail queue' := by
  cases a with
  | post e =>
      refine ⟨queue, h.setPosting ?_ nofun⟩
      unfold progress
      rw [show m.posting e = .fresh from henabled]
      show Posting.progress _ (Function.update m.posting e _ e) = _
      rw [Function.update_self]
      rfl
  | link e =>
      obtain ⟨i, hpost, hi⟩ := henabled
      exact h.link hpost hi hfit
  | finish e =>
      refine ⟨queue, h.setPosting ?_ fun _ => henabled.2⟩
      unfold progress
      rw [henabled.1]
      show Posting.progress _ (Function.update m.posting e _ e) = _
      rw [Function.update_self]
      rfl
  | dequeue c => exact h.dequeue henabled
  | advance c => exact ⟨queue, h.advance⟩

theorem Reachable.inv (hm : Reachable mail (Fit mail) m) : ∃ queue, m.Inv mail queue := by
  induction hm with
  | start => exact ⟨_, inv_initial⟩
  | step a _ henabled hfit ih =>
      obtain ⟨queue, h⟩ := ih
      exact h.perform henabled hfit

/-- A broadcast of core 2 among three cores, and mail to core 1 alone. -/
def mixed : Fin 2 → Mail Nat
  | 0 => .broadcast 3 2 false (by decide)
  | 1 => ⟨[1], false, by decide, by decide⟩

/-- The mail to core 1 comes after the broadcast, where core 1 has the second link. -/
def mixedLinked : Machine Nat (Fin 2) :=
  [.post 0, .link 0, .link 0, .post 1, .link 1].foldl (Machine.perform mixed) (initial mixed)

end Beelzebub.Mailbox.Machine
