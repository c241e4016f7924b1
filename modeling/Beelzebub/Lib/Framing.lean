import Mathlib.Data.List.Basic
import Mathlib.Data.Nat.Notation
import Mathlib.Tactic.Common

/-!
# Packets over a stream

A stream is delivered in pieces, a list of chunks.  A reader takes one packet after the other off
what its state has left and off the chunks.  `Decodes` says what one read does, and
`Decodes.session` what follows for a whole session.
-/

namespace Framing

variable {α β σ ε : Type*}

/-! ## Chunks -/

def Whole (chunks : List (List β)) : Prop := ∀ c ∈ chunks, c ≠ []

/-- At most `size` elements of the first chunk, and what is left of the chunks. -/
def receive (size : ℕ) : List (List β) → List β × List (List β)
  | [] => ([], [])
  | chunk :: chunks =>
      (chunk.take size, if chunk.length ≤ size then chunks else chunk.drop size :: chunks)

variable {size : ℕ} {chunks : List (List β)}

theorem receive_flatten (size : ℕ) (chunks : List (List β)) :
    (receive size chunks).1 ++ (receive size chunks).2.flatten = chunks.flatten := by
  cases chunks with
  | nil => rfl
  | cons chunk chunks =>
      show chunk.take size ++ (if _ then _ else _ : List (List β)).flatten = chunk ++ chunks.flatten
      split
      next hle => rw [List.take_of_length_le hle]
      next hgt => rw [List.flatten_cons, ← List.append_assoc, List.take_append_drop]

theorem receive_length (size : ℕ) (chunks : List (List β)) :
    (receive size chunks).1.length ≤ size := by
  cases chunks with
  | nil => exact Nat.zero_le _
  | cons chunk chunks => exact List.length_take_le _ _

theorem Whole.receive (h : Whole chunks) (size : ℕ) : Whole (receive size chunks).2 := by
  cases chunks with
  | nil => exact h
  | cons chunk chunks =>
      obtain ⟨-, hchunks⟩ := List.forall_mem_cons.mp h
      show Whole (if _ then _ else _)
      split
      next => exact hchunks
      next hgt =>
        refine List.forall_mem_cons.mpr ⟨?_, hchunks⟩
        intro hnil
        exact hgt (List.drop_eq_nil_iff.mp hnil)

/-- A chunk that is not empty gives something. -/
theorem Whole.receive_ne (h : Whole chunks) (hne : chunks ≠ []) (hsize : 0 < size) :
    (Framing.receive size chunks).1 ≠ [] := by
  cases chunks with
  | nil => exact absurd rfl hne
  | cons chunk chunks =>
      obtain ⟨hchunk, -⟩ := List.forall_mem_cons.mp h
      intro hnil
      rcases List.take_eq_nil_iff.mp hnil with hzero | hchunk'
      · exact Nat.ne_of_gt hsize hzero
      · exact hchunk hchunk'

theorem Whole.flatten_ne (h : Whole chunks) (hne : chunks ≠ []) : chunks.flatten ≠ [] := by
  cases chunks with
  | nil => exact absurd rfl hne
  | cons chunk chunks =>
      rw [List.flatten_cons]
      intro hnil
      exact h chunk List.mem_cons_self (List.append_eq_nil_iff.mp hnil).1

/-! ## Buffers -/

/-- A buffer of a fixed size with elements stored from an index on. -/
def overwrite (buff : List β) (i : ℕ) (elems : List β) : Option (List β) :=
  if i + elems.length ≤ buff.length then
    some (buff.take i ++ elems ++ buff.drop (i + elems.length))
  else none

/-- A part of the buffer moved within it. -/
def move (buff : List β) (dst src n : ℕ) : Option (List β) :=
  if src + n ≤ buff.length then overwrite buff dst ((buff.drop src).take n) else none

theorem overwrite_append {data elems junk : List β} (h : elems.length ≤ junk.length) :
    overwrite (data ++ junk) data.length elems =
      some (data ++ elems ++ junk.drop elems.length) := by
  unfold overwrite
  rw [if_pos (by rw [List.length_append]; exact Nat.add_le_add_left h _), List.take_left,
    List.drop_append]
  rw [List.drop_eq_nil_of_le (Nat.le_add_right _ _), Nat.add_sub_cancel_left, List.nil_append]

/-- What is moved closes the gap before it. -/
theorem move_append (kept gap moved junk : List β) :
    ∃ junk', move (kept ++ (gap ++ (moved ++ junk))) kept.length (kept.length + gap.length)
        moved.length = some (kept ++ (moved ++ junk')) ∧
      junk'.length = gap.length + junk.length := by
  have hdrop : (kept ++ (gap ++ (moved ++ junk))).drop (kept.length + gap.length) =
      moved ++ junk := by
    rw [← List.append_assoc, ← List.length_append, List.drop_left]
  have hlen : (kept ++ (gap ++ (moved ++ junk))).length =
      kept.length + gap.length + (moved.length + junk.length) := by
    rw [List.length_append, List.length_append, List.length_append, Nat.add_assoc]
  have hle : moved.length ≤ (gap ++ (moved ++ junk)).length := by
    rw [List.length_append, List.length_append]
    omega
  refine ⟨(gap ++ (moved ++ junk)).drop moved.length, ?_, ?_⟩
  · unfold move
    rw [if_pos (by rw [hlen]; omega), hdrop, List.take_left, overwrite_append hle,
      List.append_assoc]
  · rw [List.length_drop, List.length_append, List.length_append]
    omega

/-! ## Cut streams -/

/-- The packets that are there in full among the first `k` elements. -/
def received (encode : α → List β) : List α → ℕ → List α
  | [], _ => []
  | p :: ps, k =>
      if (encode p).length ≤ k then p :: received encode ps (k - (encode p).length) else []

/-- Less than a packet. -/
def Cut (encode : α → List β) (Admitted : α → Prop) (tail : List β) : Prop :=
  tail = [] ∨ ∃ p ext, Admitted p ∧ ext ≠ [] ∧ tail ++ ext = encode p

variable {encode : α → List β} {Admitted : α → Prop} {ps : List α}

theorem received_subset (encode : α → List β) (ps : List α) (k : ℕ) {p : α}
    (h : p ∈ received encode ps k) : p ∈ ps := by
  induction ps generalizing k with
  | nil => exact nomatch h
  | cons q ps ih =>
      unfold received at h
      split at h
      next =>
        rcases List.mem_cons.mp h with rfl | h
        · exact List.mem_cons_self
        · exact List.mem_cons_of_mem _ (ih _ h)
      next => exact nomatch h

/-- A stream that is cut anywhere has these packets, and less than one more. -/
theorem take_flatMap (h : ∀ p ∈ ps, Admitted p) (k : ℕ) :
    ∃ tail, (ps.flatMap encode).take k = (received encode ps k).flatMap encode ++ tail ∧
      Cut encode Admitted tail := by
  induction ps generalizing k with
  | nil =>
      refine ⟨[], ?_, .inl rfl⟩
      rw [List.flatMap_nil, List.take_nil]
      rfl
  | cons p ps ih =>
      obtain ⟨hp, hps⟩ := List.forall_mem_cons.mp h
      rw [List.flatMap_cons, received]
      split
      next hle =>
        obtain ⟨tail, htail, hcut⟩ := ih hps (k - (encode p).length)
        refine ⟨tail, ?_, hcut⟩
        rw [List.take_append, List.take_of_length_le hle, htail, List.flatMap_cons,
          List.append_assoc]
      next hgt =>
        have hlt := Nat.lt_of_not_le hgt
        refine ⟨(encode p).take k, ?_, .inr ⟨p, (encode p).drop k, hp, ?_, ?_⟩⟩
        · rw [List.take_append_of_le_length (Nat.le_of_lt hlt), List.flatMap_nil, List.nil_append]
        · intro hnil
          exact hgt (List.drop_eq_nil_iff.mp hnil)
        · exact List.take_append_drop k (encode p)

/-! ## Sessions -/

/-- One packet off a state and the chunks, or an error.  A reader that reaches beyond its buffers
is the outcome `none`. -/
abbrev Read (α β σ ε : Type*) :=
  σ → List (List β) → Option (Except ε α × σ × List (List β))

/-- The packets of a session, which goes on until a read fails, for so many packets at most. -/
def session (read : Read α β σ ε) : ℕ → σ → List (List β) → Option (List α × σ)
  | 0, s, _ => some ([], s)
  | n + 1, s, chunks =>
      match read s chunks with
      | none => none
      | some (.error _, s', _) => some ([], s')
      | some (.ok p, s', chunks') => (session read n s' chunks').map fun r => (p :: r.1, r.2)

/-- What one read does.  A stream may hold more than the packets, which `strip` leaves out.  A state
that is `Ready` has some of the stream left; after an error it is merely `Sane`. -/
structure Decodes (read : Read α β σ ε) (encode : α → List β) (strip : List β → List β)
    (Admitted : α → Prop) (Sane Ready : σ → Prop) (left : σ → List β) : Prop where
  sane : ∀ s, Ready s → Sane s
  packet : ∀ s chunks p rest, Ready s → Whole chunks → Admitted p →
    strip (left s ++ chunks.flatten) = encode p ++ rest →
    ∃ s' chunks', read s chunks = some (.ok p, s', chunks') ∧ Ready s' ∧ Whole chunks' ∧
      strip (left s' ++ chunks'.flatten) = rest
  short : ∀ s chunks, Ready s → Whole chunks →
    Cut encode Admitted (strip (left s ++ chunks.flatten)) →
    ∃ e s' chunks', read s chunks = some (.error e, s', chunks') ∧ Sane s'

variable {read : Read α β σ ε} {strip : List β → List β} {Sane Ready : σ → Prop}
variable {left : σ → List β} {s : σ}

/-- A session delivers the packets in order. -/
theorem Decodes.session (h : Decodes read encode strip Admitted Sane Ready left) (n : ℕ)
    {tail : List β} (hs : Ready s) (hchunks : Whole chunks) (hps : ∀ p ∈ ps, Admitted p)
    (hcut : Cut encode Admitted tail)
    (hstream : strip (left s ++ chunks.flatten) = ps.flatMap encode ++ tail) :
    ∃ s', session read n s chunks = some (ps.take n, s') ∧ Sane s' := by
  induction n generalizing s chunks ps with
  | zero => exact ⟨s, rfl, h.sane s hs⟩
  | succ n ih =>
      unfold Framing.session
      cases ps with
      | nil =>
          rw [List.flatMap_nil, List.nil_append] at hstream
          obtain ⟨e, s', chunks', hread, hs'⟩ := h.short s chunks hs hchunks (hstream ▸ hcut)
          rw [hread]
          exact ⟨s', rfl, hs'⟩
      | cons p ps =>
          obtain ⟨hp, hps⟩ := List.forall_mem_cons.mp hps
          rw [List.flatMap_cons, List.append_assoc] at hstream
          obtain ⟨s', chunks', hread, hs', hchunks', hrest⟩ :=
            h.packet s chunks p _ hs hchunks hp hstream
          obtain ⟨s'', hsession, hs''⟩ := ih hs' hchunks' hps hrest
          rw [hread]
          dsimp only
          rw [hsession]
          exact ⟨s'', rfl, hs''⟩

end Framing
