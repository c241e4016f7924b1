import Beelzebub.Djinn.Link
import Beelzebub.Djinn.ReadPrefixed

/-!
# Sessions of the debugger

The debugger connects again whenever a session is over.  Its readers' static buffers stay as the
session before has left them.
-/

namespace Beelzebub.Djinn

open Framing

/-! ## The code -/

/-- What goes over a link, and how it is read.  The reader is the one that `main` chooses. -/
structure Link (σ : Type) where
  send : Bool → ManagedSerialPort → Packet → Option (DjinnSendRes × ManagedSerialPort)
  read : Bool → Read Packet UInt8 σ ℤ
  strip : List UInt8 → List UInt8
  encode : Packet → List UInt8
  Admitted : Packet → Prop
  start : σ

def SockStatics.start : SockStatics := ⟨List.replicate buffSize 0, 0⟩

def prefixedLink : Link SockStatics where
  send := djinnSendPacketThroughSerialPort
  read := readPacketSock
  strip := id
  encode := prefixed
  Admitted := Short
  start := SockStatics.start

def base64Link : Link Base64Statics where
  send := djinnSendPacketThroughSerialPortBase64
  read := readPacketSockBase64
  strip := strip
  encode := lined
  Admitted := Admitted
  start := Base64Statics.start

/-- The readers' buffers, unless a reader has reached beyond them.  For the record, the packets that
each session was to return and those that it did. -/
structure State (σ : Type) where
  statics : Option σ
  log : List (List Packet × Option (List Packet))

variable {σ : Type}

/-- A connection carries what the port sends for some packets, up to any byte.  It ends with a read
that fails, or once the loop has had so many packets and gives up. -/
structure Connection (link : Link σ) where
  calls : List (Bool × Packet)
  port : ManagedSerialPort
  given : List Packet
  cut : ℕ
  broken : Bool
  chunks : List (List UInt8)
  packets : ℕ
  admitted : ∀ c ∈ calls, link.Admitted c.2
  sent : ∃ port₀ : ManagedSerialPort, port₀.sent = [] ∧
    sendAll link.send port₀ calls = some (port, given)
  whole : Whole chunks
  stream : link.strip chunks.flatten = port.sent.take cut

/-- The packets that are completely received, as far as the loop goes. -/
def Connection.complete {link : Link σ} (c : Connection link) : List Packet :=
  (received link.encode c.given c.cut).take c.packets

/-- `Loop` on a connection. -/
def Connection.loop {link : Link σ} (c : Connection link) (st : σ) : Option (List Packet × σ) :=
  session (link.read c.broken) c.packets st c.chunks

/-- The runs where every connection finds the buffers as allowed. -/
inductive Reachable (link : Link σ) (Allowed : σ → Prop) : State σ → Prop where
  | start : Reachable link Allowed ⟨some link.start, []⟩
  | connect {st : σ} {log : List (List Packet × Option (List Packet))} (c : Connection link) :
      Reachable link Allowed ⟨some st, log⟩ → Allowed st →
      Reachable link Allowed ⟨(c.loop st).map Prod.snd,
        log ++ [(c.complete, (c.loop st).map Prod.fst)]⟩

/-! ## What is asked -/

/-- Every session returned the packets that its connection carried. -/
def Clean (s : State σ) : Prop := ∀ e ∈ s.log, e.2 = some e.1

/-- There is nothing in the buffer, or just the packet that was returned last. -/
def SockStatics.Fresh (st : SockStatics) : Prop :=
  st.buffLen ≤ 0 ∨ packSize st.buffIn = some (st.buffLen - 1)

def Base64Statics.Fresh (st : Base64Statics) : Prop := st.buffLen ≤ st.lastPackEnd

/-! ## All runs -/

variable {link : Link σ} {Allowed Sane Ready : σ → Prop} {left : σ → List UInt8} {s : State σ}

/-- A session on buffers with nothing left in them. -/
theorem Connection.loop_clean (c : Connection link) {st : σ} (hsends : Sends link.send link.encode)
    (hdecodes : ∀ broken, Decodes (link.read broken) link.encode link.strip link.Admitted Sane Ready
      left) (hready : Ready st) (hleft : left st = []) :
    ∃ st', c.loop st = some (c.complete, st') ∧ Sane st' := by
  obtain ⟨port₀, hport, hall⟩ := c.sent
  obtain ⟨port, given, hall', hgiven, hsent⟩ := hsends.sendAll c.calls port₀
  obtain ⟨hport', hgiven'⟩ := Prod.mk.inj (Option.some.inj (hall.symm.trans hall'))
  subst hgiven'
  rw [hport, List.nil_append] at hsent
  have hadmitted : ∀ p ∈ c.given, link.Admitted p := by
    intro p hp
    obtain ⟨call, hcall, rfl⟩ := List.mem_map.mp (hgiven.subset hp)
    exact c.admitted call hcall
  obtain ⟨tail, htail, hcut⟩ := take_flatMap hadmitted c.cut
  have hstream : link.strip (left st ++ c.chunks.flatten) =
      (received link.encode c.given c.cut).flatMap link.encode ++ tail := by
    rw [hleft, List.nil_append, c.stream, hport', hsent, htail]
  exact (hdecodes c.broken).session c.packets hready c.whole
    (fun p hp => hadmitted p (received_subset _ _ _ hp)) hcut hstream

/-- A link is clean when each connection finds nothing in the buffers. -/
theorem Reachable.stays_clean (h : Reachable link Allowed s) (hsends : Sends link.send link.encode)
    (hdecodes : ∀ broken, Decodes (link.read broken) link.encode link.strip link.Admitted Sane Ready
      left) (hstart : Sane link.start)
    (hfresh : ∀ st, Sane st → Allowed st → Ready st ∧ left st = []) :
    (∀ st, s.statics = some st → Sane st) ∧ Clean s := by
  induction h with
  | start =>
      refine ⟨?_, fun e he => nomatch he⟩
      intro st hst
      exact Option.some.inj hst ▸ hstart
  | connect c _ hallowed ih =>
      obtain ⟨hsane, hclean⟩ := ih
      obtain ⟨hready, hleft⟩ := hfresh _ (hsane _ rfl) hallowed
      obtain ⟨st', hloop, hst'⟩ := c.loop_clean hsends hdecodes hready hleft
      rw [hloop]
      refine ⟨?_, ?_⟩
      · intro st hst
        exact Option.some.inj hst ▸ hst'
      · intro e he
        rcases List.mem_append.mp he with he | he
        · exact hclean e he
        · obtain rfl := List.mem_singleton.mp he
          rfl

theorem sane_start : SockStatics.start.Sane := ⟨List.length_replicate, Int.natCast_nonneg _⟩

theorem SockStatics.Sane.fresh {st : SockStatics} (h : st.Sane) (hfresh : st.Fresh) :
    st.Ready ∧ st.left = [] := by
  rcases hfresh with hnone | hsize
  · exact ⟨⟨h, fun hpos => absurd hnone (Int.not_le.mpr hpos)⟩, left_of_le hnone⟩
  · refine ⟨⟨h, ?_⟩, ?_⟩
    · intro hpos
      obtain ⟨n, hn⟩ := Int.eq_ofNat_of_zero_le (show 0 ≤ st.buffLen - 1 by omega)
      refine ⟨n, ?_, by omega⟩
      rw [hsize, hn]
    · unfold SockStatics.left
      rw [hsize]
      dsimp only
      rw [List.drop_eq_nil_iff, List.length_take, Int.sub_add_cancel]
      exact Nat.min_le_left _ _

theorem Base64Statics.Ready.fresh {st : Base64Statics} (h : st.Ready) (hfresh : st.Fresh) :
    st.Ready ∧ st.left = [] := by
  refine ⟨h, ?_⟩
  unfold Base64Statics.left
  rw [List.drop_eq_nil_iff, List.length_take]
  exact Nat.le_trans (Nat.min_le_left _ _) hfresh

/-- The sessions are clean in every run where each connection finds the buffer empty, or just with
the packet in it that was returned last. -/
theorem clean (s : State SockStatics) (t : State Base64Statics) :
    (Reachable prefixedLink SockStatics.Fresh s → Clean s) ∧
    (Reachable base64Link Base64Statics.Fresh t → Clean t) := by
  constructor
  · intro h
    exact (h.stays_clean sends_prefixed decodes_prefixed sane_start fun _ hst => hst.fresh).2
  · intro h
    exact (h.stays_clean sends_base64 decodes_base64 ready_start fun _ hst => hst.fresh).2

/-- Two packets, with the last byte missing. -/
def prefixedCut : Connection prefixedLink where
  calls := [(true, [1, 1]), (true, [2, 2])]
  port := ⟨16, freshPort.queueSize_pos, 6, [2, 1, 1, 2, 2, 2]⟩
  given := [[1, 1], [2, 2]]
  cut := 5
  broken := false
  chunks := [[2, 1, 1, 2, 2]]
  packets := 2
  admitted := by simp [prefixedLink, Short]
  sent := ⟨freshPort, rfl, rfl⟩
  whole := by simp [Whole]
  stream := rfl

/-- One packet, and the connection is closed. -/
def linedOnce : Connection base64Link where
  calls := [(true, [1, 2])]
  port := ⟨16, freshPort.queueSize_pos, 5, [65, 81, 73, 61, 10]⟩
  given := [[1, 2]]
  cut := 5
  broken := false
  chunks := [[65, 81, 73, 61, 10]]
  packets := 2
  admitted := by simp [base64Link, Admitted]
  sent := ⟨freshPort, rfl, rfl⟩
  whole := by simp [Whole]
  stream := rfl

/-- A first session on each link. -/
theorem clean_first :
    Clean ⟨(prefixedCut.loop SockStatics.start).map Prod.snd,
      [(prefixedCut.complete, (prefixedCut.loop SockStatics.start).map Prod.fst)]⟩ ∧
    Clean ⟨(linedOnce.loop Base64Statics.start).map Prod.snd,
      [(linedOnce.complete, (linedOnce.loop Base64Statics.start).map Prod.fst)]⟩ := by
  have hclean := clean ⟨(prefixedCut.loop SockStatics.start).map Prod.snd,
      [(prefixedCut.complete, (prefixedCut.loop SockStatics.start).map Prod.fst)]⟩
    ⟨(linedOnce.loop Base64Statics.start).map Prod.snd,
      [(linedOnce.complete, (linedOnce.loop Base64Statics.start).map Prod.fst)]⟩
  constructor
  · exact hclean.1 (.connect prefixedCut .start (.inl (Int.le_refl 0)))
  · exact hclean.2 (.connect linedOnce .start (Nat.le_refl 0))

/-! ## What is left over -/

/-- One more packet. -/
def prefixedNext : Connection prefixedLink where
  calls := [(true, [3, 3])]
  port := ⟨16, freshPort.queueSize_pos, 3, [2, 3, 3]⟩
  given := [[3, 3]]
  cut := 3
  broken := false
  chunks := [[2, 3, 3]]
  packets := 1
  admitted := by simp [prefixedLink, Short]
  sent := ⟨freshPort, rfl, rfl⟩
  whole := by simp [Whole]
  stream := rfl

/-- A connection that is closed at once. -/
def linedClosed : Connection base64Link where
  calls := []
  port := freshPort
  given := []
  cut := 0
  broken := false
  chunks := []
  packets := 1
  admitted := by simp
  sent := ⟨freshPort, rfl, rfl⟩
  whole := by simp [Whole]
  stream := rfl

variable {junk : List UInt8}

/-- The first packet of two. -/
theorem readPacketSock_once (h : junk.length = buffSize) :
    readPacketSock false ⟨junk, 0⟩ [[2, 1, 1, 2, 2]] =
      some (.ok [1, 1], ⟨[2, 1, 1, 2, 2] ++ junk.drop 5, 5⟩, []) := by
  have hbuff : overwrite junk 0 [2, 1, 1, 2, 2] = some ([2, 1, 1, 2, 2] ++ junk.drop 5) :=
    @overwrite_append _ [] _ _ (by rw [h]; decide)
  have hfill : fill false 6 junk 0 4096 [[2, 1, 1, 2, 2]] =
      some (.ok (5, 3), [2, 1, 1, 2, 2] ++ junk.drop 5, []) := by
    rw [fill.eq_def]
    simp [recv, receive, hbuff, packSize, buffSize]
    rw [fill.eq_def]
    simp
  obtain ⟨n, hn⟩ : ∃ n, packSize junk = some n := by
    cases junk with
    | nil => exact absurd h (by decide)
    | cons x junk => exact ⟨_, rfl⟩
  simp [readPacketSock, shift, hn, buffSize, hfill]

/-- The read fails, but the packet before is gone by then. -/
theorem readPacketSock_again (h : junk.length = buffSize) :
    readPacketSock false ⟨[2, 1, 1, 2, 2] ++ junk.drop 5, 5⟩ [] =
      some (.error (-2), ⟨[2, 2, 1, 2, 2] ++ junk.drop 5, 5⟩, []) := by
  have hjunk : (junk.drop 5).length = 4091 := by rw [List.length_drop, h]; rfl
  simp [readPacketSock, shift, fill, recv, receive, overwrite, move, packSize, hjunk, buffSize]

theorem readPacketSockBase64_once (h : junk.length = buffSize) :
    readPacketSockBase64 false ⟨junk, 0, 0⟩ [[65, 81, 73, 61, 10]] =
      some (.ok [1, 2], ⟨[65, 81, 73, 61, 10] ++ junk.drop 5, 5, 5⟩, []) := by
  have hbuff : overwrite junk 0 [65, 81, 73, 61, 10] = some ([65, 81, 73, 61, 10] ++ junk.drop 5) :=
    @overwrite_append _ [] _ _ (by rw [h]; decide)
  have hscan : scanAndReceive false 6 junk 0 0 [[65, 81, 73, 61, 10]] =
      some (.ok (5, 5), [65, 81, 73, 61, 10] ++ junk.drop 5, []) := by
    rw [scanAndReceive.eq_def]
    simp [scan, recv, receive, buffSize, hbuff]
    rw [scanAndReceive.eq_def]
    simp [scan]
  have hdecode : decode ([65, 81, 73, 61, 10] ++ junk.drop 5) 5 buffSize 0 [] = some [1, 2] :=
    @decode_spec _ _ [1, 2] (by decide) (by decide) (by decide) [] (junk.drop 5)
  simp only [readPacketSockBase64, shiftBase64]
  simp [hscan]
  exact congrArg (Option.bind · _) hdecode

/-- The read fails, and the end of the packet before is lost. -/
theorem readPacketSockBase64_again (junk : List UInt8) :
    readPacketSockBase64 false ⟨[65, 81, 73, 61, 10] ++ junk.drop 5, 5, 5⟩ [] =
      some (.error (-2), ⟨[65, 81, 73, 61, 10] ++ junk.drop 5, 5, 0⟩, []) := by
  simp [readPacketSockBase64, shiftBase64, scanAndReceive, scan, recv, receive, buffSize]

theorem prefixedCut_loop : prefixedCut.loop SockStatics.start =
    some ([[1, 1]], ⟨[2, 2, 1, 2, 2] ++ SockStatics.start.buffIn.drop 5, 5⟩) := by
  have hlen : SockStatics.start.buffIn.length = buffSize := List.length_replicate
  show session (readPacketSock false) 2 ⟨SockStatics.start.buffIn, 0⟩ [[2, 1, 1, 2, 2]] = _
  rw [session, readPacketSock_once hlen]
  dsimp only
  rw [session, readPacketSock_again hlen]
  rfl

theorem linedOnce_loop : linedOnce.loop Base64Statics.start =
    some ([[1, 2]], ⟨[65, 81, 73, 61, 10] ++ Base64Statics.start.buffIn.drop 5, 5, 0⟩) := by
  have hlen : Base64Statics.start.buffIn.length = buffSize := List.length_replicate
  show session (readPacketSockBase64 false) 2 ⟨Base64Statics.start.buffIn, 0, 0⟩
    [[65, 81, 73, 61, 10]] = _
  rw [session, readPacketSockBase64_once hlen]
  dsimp only
  rw [session, readPacketSockBase64_again]
  rfl

theorem prefixedNext_loop (h : junk.length = buffSize) :
    ∃ st, prefixedNext.loop ⟨[2, 2, 1, 2, 2] ++ junk.drop 5, 5⟩ = some ([[2, 2]], st) := by
  have hlen : ([2, 2, 1, 2, 2] ++ junk.drop 5).length = buffSize := by
    rw [List.length_append, List.length_drop, h]
    rfl
  have hsize : (0 : ℤ) < 5 →
      ∃ n : ℕ, packSize ([2, 2, 1, 2, 2] ++ junk.drop 5) = some (n : ℤ) ∧ (n : ℤ) + 1 ≤ 5 :=
    fun _ => ⟨2, rfl, by decide⟩
  obtain ⟨st, chunks, hread, -⟩ := @readPacketSock_packet [3, 3] [[2, 3, 3]] false [2, 2]
    ⟨[2, 2, 1, 2, 2] ++ junk.drop 5, 5⟩ ⟨⟨hlen, show (5 : ℤ) ≤ 4096 by decide⟩, hsize⟩
    prefixedNext.whole ⟨by decide, by decide⟩ rfl
  refine ⟨st, ?_⟩
  show session (readPacketSock false) 1 _ [[2, 3, 3]] = _
  rw [session, hread]
  rfl

theorem linedClosed_loop (h : junk.length = buffSize) :
    ∃ st, linedClosed.loop ⟨[65, 81, 73, 61, 10] ++ junk.drop 5, 5, 0⟩ = some ([[1, 2]], st) := by
  have hlen : ([65, 81, 73, 61, 10] ++ junk.drop 5).length = buffSize := by
    rw [List.length_append, List.length_drop, h]
    rfl
  obtain ⟨st, chunks, hread, -⟩ := @readPacketSockBase64_packet [] [] false [1, 2]
    ⟨[65, 81, 73, 61, 10] ++ junk.drop 5, 5, 0⟩ ⟨hlen, show 5 ≤ 4096 by decide⟩
    linedClosed.whole ⟨by decide, by decide⟩ rfl
  refine ⟨st, ?_⟩
  show session (readPacketSockBase64 false) 1 _ [] = _
  rw [session, hread]
  rfl

/-- A session that returns something else. -/
theorem not_clean_of {σ : Type} {link : Link σ} {c d : Connection link} {st st' : σ}
    {packets packets' : List Packet} (hc : c.loop link.start = some (packets, st))
    (hd : d.loop st = some (packets', st')) (hne : packets' ≠ d.complete) :
    ¬ ∀ s, Reachable link (fun _ => True) s → Clean s := by
  intro h
  have hone : Reachable link (fun _ => True) ⟨_, _⟩ := .connect c .start trivial
  rw [hc] at hone
  have htwo : Reachable link (fun _ => True) ⟨_, _⟩ := .connect d hone trivial
  rw [hd] at htwo
  exact hne (Option.some.inj (h _ htwo _ (List.mem_append_right _ List.mem_cons_self)))

/-- A packet that was broken off is returned as part of the next session, and so is one that was
returned already. -/
theorem not_clean :
    (¬ ∀ s, Reachable prefixedLink (fun _ => True) s → Clean s) ∧
    ¬ ∀ s, Reachable base64Link (fun _ => True) s → Clean s := by
  constructor
  · obtain ⟨st, hnext⟩ := prefixedNext_loop sane_start.length
    exact not_clean_of prefixedCut_loop hnext (by decide)
  · obtain ⟨st, hnext⟩ := linedClosed_loop ready_start.length
    exact not_clean_of linedOnce_loop hnext (by decide)

end Beelzebub.Djinn
