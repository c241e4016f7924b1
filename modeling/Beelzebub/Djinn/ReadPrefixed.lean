import Beelzebub.Djinn.ReadBase64

/-!
# Reading packets with their size in front off a socket

A read receives until the buffer holds as much as its first byte says.  It takes out the packet
before it by what that byte says too, so that this goes wrong where the byte has been overwritten.
-/

namespace Beelzebub.Djinn

open Framing

variable {data junk rest : List UInt8} {chunks : List (List UInt8)} {broken : Bool} {rounds : ℕ}
variable {packet : Packet}

/-! ## The size -/

/-- The packets that the serial sender admits with a queue of `64`. -/
def Short (packet : Packet) : Prop := 2 ≤ packet.length ∧ packet.length ≤ 63

theorem packSize_append (h : packet.length < 128) (rest : List UInt8) :
    packSize (prefixed packet ++ rest) = some (packet.length : ℤ) := by
  have hbyte : ∀ k : Fin 128, (UInt8.ofNat k).toInt8.toInt = (k : ℤ) := by decide +kernel
  exact congrArg some (hbyte ⟨packet.length, h⟩)

/-- What a stream begins with has the size as soon as it has anything. -/
theorem packSize_data (h : packet.length < 128) (hne : data ≠ []) {more : List UInt8}
    (hstream : data ++ more = prefixed packet ++ rest) (junk : List UInt8) :
    packSize (data ++ junk) = some (packet.length : ℤ) := by
  have hsize := packSize_append h rest
  rw [← hstream] at hsize
  cases data with
  | nil => exact absurd rfl hne
  | cons c data => exact hsize

theorem prefixed_length (packet : Packet) : (prefixed packet).length = packet.length + 1 := rfl

/-! ## Receiving -/

/-- The length that is received up to: the whole buffer as long as the size is not there. -/
def target (packet : Packet) (data : List UInt8) : ℤ :=
  if data = [] then buffSize else packet.length + 1

theorem target_prefixed (packet : Packet) (rest : List UInt8) :
    target packet (prefixed packet ++ rest) = packet.length + 1 := if_neg (List.cons_ne_nil _ _)

theorem fill_step (hlen : data.length + junk.length = buffSize) (hsize : packet.length < 128)
    (hlt : (data.length : ℤ) < target packet data) (hroom : data.length < buffSize)
    {ext : List UInt8} (hstream : data ++ (chunks.flatten ++ ext) = prefixed packet ++ rest)
    (hchunks : Whole chunks) (hne : chunks ≠ []) (broken : Bool) (rounds : ℕ) :
    ∃ bytes chunks' junk', fill broken (rounds + 1) (data ++ junk) data.length (target packet data)
        chunks = fill broken rounds ((data ++ bytes) ++ junk') (data ++ bytes).length
          (target packet (data ++ bytes)) chunks' ∧
      bytes ≠ [] ∧ bytes ++ chunks'.flatten = chunks.flatten ∧ Whole chunks' ∧
      (data ++ bytes).length + junk'.length = buffSize := by
  have hpos : 0 < buffSize - data.length := Nat.sub_pos_of_lt hroom
  have hle := receive_length (buffSize - data.length) chunks
  have hbytes := hchunks.receive_ne hne hpos
  have hflatten := receive_flatten (buffSize - data.length) chunks
  have hrecv := @recv_ok chunks broken _ hchunks hne hpos
  have hwhole := hchunks.receive (buffSize - data.length)
  generalize receive (buffSize - data.length) chunks = received at *
  obtain ⟨bytes, chunks'⟩ := received
  dsimp only at hle hbytes hflatten hwhole
  have hnew : data ++ bytes ≠ [] := List.append_ne_nil_of_right_ne_nil _ hbytes
  have hstream' : (data ++ bytes) ++ (chunks'.flatten ++ ext) = prefixed packet ++ rest := by
    rw [List.append_assoc, ← List.append_assoc bytes, hflatten]
    exact hstream
  have hpack := packSize_data hsize hnew hstream' (junk.drop bytes.length)
  have htarget : (if (data.length : ℤ) = 0 then (packet.length : ℤ) + 1 else target packet data) =
      target packet (data ++ bytes) := by
    unfold target
    rw [if_neg hnew]
    split
    next => rfl
    next hzero =>
      rw [if_neg]
      rintro rfl
      exact hzero rfl
  refine ⟨bytes, chunks', junk.drop bytes.length, ?_, hbytes, hflatten, hwhole, ?_⟩
  · conv => lhs; unfold fill
    rw [if_pos hlt, if_neg (by omega), Int.toNat_natCast, hrecv]
    dsimp only
    rw [overwrite_append (by omega)]
    simp only [Option.bind_eq_bind, Option.bind_some]
    rw [hpack, Option.bind_some, htarget, List.length_append, Int.natCast_add]
  · rw [List.length_append, List.length_drop]
    omega

/-- The packet is in the buffer as a whole, with what is left behind it. -/
def Filled (broken : Bool) (rounds : ℕ) (buff : List UInt8) (cursor packLen : ℤ)
    (chunks : List (List UInt8)) (packet : Packet) (rest : List UInt8) : Prop :=
  ∃ more junk chunks', fill broken rounds buff cursor packLen chunks =
      some (.ok (((prefixed packet ++ more).length : ℤ), (packet.length : ℤ) + 1),
        prefixed packet ++ (more ++ junk), chunks') ∧
    (prefixed packet ++ more).length + junk.length = buffSize ∧
    more ++ chunks'.flatten = rest ∧ Whole chunks'

theorem filled_done (hlen : data.length + junk.length = buffSize)
    (hge : target packet data ≤ data.length) (hchunks : Whole chunks)
    (hstream : data ++ chunks.flatten = prefixed packet ++ rest) :
    Filled broken rounds (data ++ junk) data.length (target packet data) chunks packet rest := by
  have hne : data ≠ [] := by
    rintro rfl
    change (buffSize : ℤ) ≤ 0 at hge
    exact absurd hge (by decide)
  have htarget : target packet data = packet.length + 1 := if_neg hne
  rw [htarget] at hge ⊢
  have hle : (prefixed packet).length ≤ data.length := by
    rw [prefixed_length]
    omega
  obtain ⟨more, hdata, hrest⟩ : ∃ more, data = prefixed packet ++ more ∧
      rest = more ++ chunks.flatten := by
    rcases List.append_eq_append_iff.mp hstream with ⟨more, hfront, hrest⟩ | ⟨more, hdata, hrest⟩
    · have hnil : more = [] := by
        have hsum := congrArg List.length hfront
        rw [List.length_append] at hsum
        exact List.eq_nil_of_length_eq_zero (by omega)
      subst hnil
      rw [List.append_nil] at hfront
      exact ⟨[], by rw [hfront, List.append_nil], hrest.symm⟩
    · exact ⟨more, hdata, hrest⟩
  subst hdata
  refine ⟨more, junk, chunks, ?_, hlen, hrest.symm, hchunks⟩
  unfold fill
  rw [if_neg (Int.not_lt.mpr hge), List.append_assoc]

/-- Of less than a packet there is more to receive. -/
theorem lt_target {more : List UInt8} (hmore : more ≠ []) (h : data ++ more = prefixed packet) :
    (data.length : ℤ) < target packet data := by
  have hsum := congrArg List.length h
  have hpos := List.length_pos_iff.mpr hmore
  rw [List.length_append, prefixed_length] at hsum
  unfold target
  split
  next hnil =>
    subst hnil
    decide
  next => omega

theorem data_lt (hlt : (data.length : ℤ) < target packet data) (hsize : packet.length < 128) :
    data.length < buffSize := by
  unfold target at hlt
  unfold buffSize at *
  split at hlt
  next hnil => exact Int.ofNat_lt.mp hlt
  next => omega

theorem fill_packet (hlen : data.length + junk.length = buffSize) (hsize : packet.length < 128)
    (hchunks : Whole chunks) (hrounds : chunks.flatten.length ≤ rounds)
    (hstream : data ++ chunks.flatten = prefixed packet ++ rest) :
    Filled broken rounds (data ++ junk) data.length (target packet data) chunks packet rest := by
  induction rounds generalizing data junk chunks with
  | zero =>
      have hnil : chunks.flatten = [] := List.eq_nil_of_length_eq_zero (Nat.le_zero.mp hrounds)
      refine filled_done hlen ?_ hchunks hstream
      rw [hnil, List.append_nil] at hstream
      rw [hstream, target_prefixed, List.length_append, prefixed_length]
      omega
  | succ rounds ih =>
      rcases Int.lt_or_le data.length (target packet data) with hlt | hge
      · have hroom := data_lt hlt hsize
        have hne : chunks ≠ [] := by
          rintro rfl
          change data ++ [] = prefixed packet ++ rest at hstream
          rw [List.append_nil] at hstream
          rw [hstream, target_prefixed, List.length_append, prefixed_length] at hlt
          omega
        have hstream' : data ++ (chunks.flatten ++ []) = prefixed packet ++ rest := by
          rw [List.append_nil]
          exact hstream
        obtain ⟨bytes, chunks', junk', hstep, hbytes, hflatten, hchunks', hlen'⟩ :=
          fill_step hlen hsize hlt hroom hstream' hchunks hne broken rounds
        have hrounds' : chunks'.flatten.length ≤ rounds := by
          have hpos := List.length_pos_iff.mpr hbytes
          have hsum := congrArg List.length hflatten
          rw [List.length_append] at hsum
          omega
        have hfilled := ih hlen' hchunks' hrounds' (by rw [List.append_assoc, hflatten]; exact hstream)
        unfold Filled at hfilled ⊢
        rw [hstep]
        exact hfilled
      · exact filled_done hlen hge hchunks hstream

theorem fill_nil (hlen : data.length + junk.length = buffSize)
    (hlt : (data.length : ℤ) < target packet data) (broken : Bool) (rounds : ℕ) :
    ∃ e, fill broken rounds (data ++ junk) data.length (target packet data) [] =
      some (.error e, data ++ junk, []) := by
  unfold fill
  rw [if_pos hlt, if_neg (by omega), recv_nil]
  cases rounds with
  | zero => exact ⟨_, rfl⟩
  | succ rounds => exact ⟨_, rfl⟩

/-- Less than a packet is an error. -/
theorem fill_short (hlen : data.length + junk.length = buffSize) (hsize : packet.length < 128)
    (hchunks : Whole chunks) (hrounds : chunks.flatten.length ≤ rounds) {ext : List UInt8}
    (hext : ext ≠ []) (hstream : data ++ (chunks.flatten ++ ext) = prefixed packet) :
    ∃ e buff chunks', fill broken rounds (data ++ junk) data.length (target packet data) chunks =
      some (.error e, buff, chunks') ∧ buff.length = buffSize := by
  have hlt := lt_target (List.append_ne_nil_of_right_ne_nil chunks.flatten hext) hstream
  induction rounds generalizing data junk chunks with
  | zero =>
      have hnil : chunks.flatten = [] := List.eq_nil_of_length_eq_zero (Nat.le_zero.mp hrounds)
      have hchunks : chunks = [] := by
        by_contra hne
        exact hchunks.flatten_ne hne hnil
      subst hchunks
      obtain ⟨e, hfill⟩ := fill_nil hlen hlt broken 0
      exact ⟨e, _, [], hfill, by rw [List.length_append]; exact hlen⟩
  | succ rounds ih =>
      by_cases hne : chunks = []
      · subst hne
        obtain ⟨e, hfill⟩ := fill_nil hlen hlt broken (rounds + 1)
        exact ⟨e, _, [], hfill, by rw [List.length_append]; exact hlen⟩
      · have hstream' : data ++ (chunks.flatten ++ ext) = prefixed packet ++ [] := by
          rw [List.append_nil]
          exact hstream
        obtain ⟨bytes, chunks', junk', hstep, hbytes, hflatten, hchunks', hlen'⟩ :=
          fill_step hlen hsize hlt (data_lt hlt hsize) hstream' hchunks hne broken rounds
        have hpos := List.length_pos_iff.mpr hbytes
        have hrounds' : chunks'.flatten.length ≤ rounds := by
          have hsum := congrArg List.length hflatten
          rw [List.length_append] at hsum
          omega
        have hstream'' : (data ++ bytes) ++ (chunks'.flatten ++ ext) = prefixed packet := by
          rw [List.append_assoc, ← List.append_assoc bytes, hflatten]
          exact hstream
        rw [hstep]
        exact ih hlen' hchunks' hrounds' hstream''
          (lt_target (List.append_ne_nil_of_right_ne_nil _ hext) hstream'')

/-! ## One read -/

/-- The size of the buffer. -/
structure SockStatics.Sane (s : SockStatics) : Prop where
  length : s.buffIn.length = buffSize
  buffLen_le : s.buffLen ≤ buffSize

/-- The buffer is empty, or its first byte is the size of a packet in it. -/
structure SockStatics.Ready (s : SockStatics) : Prop where
  sane : s.Sane
  size : 0 < s.buffLen → ∃ n : ℕ, packSize s.buffIn = some (n : ℤ) ∧ (n : ℤ) + 1 ≤ s.buffLen

/-- What the first byte says comes behind the packet that was returned last. -/
def SockStatics.left (s : SockStatics) : List UInt8 :=
  match packSize s.buffIn with
  | none => []
  | some n => (s.buffIn.take s.buffLen.toNat).drop (n + 1).toNat

theorem left_of_le {s : SockStatics} (h : s.buffLen ≤ 0) : s.left = [] := by
  have hzero : s.buffLen.toNat = 0 := Int.toNat_eq_zero.mpr h
  unfold SockStatics.left
  rw [hzero, List.take_zero]
  cases packSize s.buffIn with
  | none => rfl
  | some n => exact List.drop_nil

theorem shift_spec {s : SockStatics} (h : s.Ready) :
    ∃ junk, shift s = some (s.left ++ junk, (s.left.length : ℤ)) ∧
      s.left.length + junk.length = buffSize := by
  have hlength := h.sane.length
  have hle := h.sane.buffLen_le
  by_cases hpos : 0 < s.buffLen
  · obtain ⟨n, hsize, hn⟩ := h.size hpos
    obtain ⟨b, hb⟩ := Int.eq_ofNat_of_zero_le (Int.le_of_lt hpos)
    have hleft : s.left = (s.buffIn.take b).drop (n + 1) := by
      unfold SockStatics.left
      rw [hsize, hb]
      rfl
    have hlen : s.left.length = b - (n + 1) := by
      rw [hleft, List.length_drop, List.length_take, hlength]
      omega
    unfold shift
    rw [if_pos hpos, hsize]
    simp only [Option.bind_eq_bind, Option.bind_some]
    by_cases hmore : s.left = []
    · have hcursor : s.buffLen - (n : ℤ) - 1 = 0 := by
        rw [hmore, List.length_nil] at hlen
        omega
      rw [hcursor, if_neg (Int.lt_irrefl 0), hmore]
      exact ⟨s.buffIn, rfl, by rw [hlength]; rfl⟩
    · have hlen' := List.length_pos_iff.mpr hmore
      have hcursor : s.buffLen - (n : ℤ) - 1 = (s.left.length : ℤ) := by omega
      have hgap : (s.buffIn.take (n + 1)).length = n + 1 := by
        rw [List.length_take, hlength]
        omega
      have htake : s.buffIn.take (n + 1) ++ s.left = s.buffIn.take b := by
        have hfront := List.take_append_drop (n + 1) (s.buffIn.take b)
        rw [List.take_take, Nat.min_eq_left (by omega), ← hleft] at hfront
        exact hfront
      obtain ⟨junk, hmove, hjunk⟩ := move_append [] (s.buffIn.take (n + 1)) s.left (s.buffIn.drop b)
      rw [List.nil_append, ← List.append_assoc, htake, List.take_append_drop, List.length_nil,
        Nat.zero_add, hgap, List.nil_append] at hmove
      have hneg : ¬ (n : ℤ) + 1 < 0 := by omega
      have hindex : ((n : ℤ) + 1).toNat = n + 1 := rfl
      rw [hcursor, if_pos (Int.natCast_pos.mpr hlen'), if_neg hneg, hindex, Int.toNat_natCast, hmove]
      refine ⟨junk, rfl, ?_⟩
      rw [hjunk, hgap, List.length_drop, hlength]
      omega
  · have hnil := left_of_le (Int.not_lt.mp hpos)
    unfold shift
    rw [if_neg hpos, hnil]
    exact ⟨s.buffIn, rfl, by rw [hlength]; rfl⟩

/-- What is left over counts as part of the stream, and its first byte as a size. -/
theorem target_left {s : SockStatics} (hlen : s.left.length + junk.length = buffSize)
    (hsize : packet.length < 128) {more : List UInt8}
    (hstream : s.left ++ more = prefixed packet ++ rest) :
    ∃ n, packSize (s.left ++ junk) = some n ∧
      (if (s.left.length : ℤ) = 0 then (buffSize : ℤ) else n + 1) = target packet s.left := by
  by_cases hnil : s.left = []
  · rw [hnil, List.length_nil, Nat.zero_add] at hlen
    have hpos : 0 < junk.length := by
      rw [hlen]
      decide
    refine ⟨junk[0].toInt8.toInt, ?_, ?_⟩
    · rw [hnil, List.nil_append]
      unfold packSize
      rw [List.getElem?_eq_getElem hpos]
      rfl
    · rw [hnil]
      rfl
  · refine ⟨packet.length, packSize_data hsize hnil hstream junk, ?_⟩
    have hne : ¬ (s.left.length : ℤ) = 0 := by
      have hpos := List.length_pos_iff.mpr hnil
      omega
    unfold target
    rw [if_neg hne, if_neg hnil]

/-- A packet that comes next is returned. -/
theorem readPacketSock_packet {s : SockStatics} (hs : s.Ready) (hchunks : Whole chunks)
    (hp : Short packet) (hstream : s.left ++ chunks.flatten = prefixed packet ++ rest) :
    ∃ s' chunks', readPacketSock broken s chunks = some (.ok packet, s', chunks') ∧
      s'.Ready ∧ Whole chunks' ∧ s'.left ++ chunks'.flatten = rest := by
  have hsize : packet.length < 128 := Nat.lt_of_le_of_lt hp.2 (by decide)
  obtain ⟨junk, hshift, hjunk⟩ := shift_spec hs
  obtain ⟨n, hpack, htarget⟩ := target_left hjunk hsize hstream
  obtain ⟨more, junk', chunks', hfill, hlen, hrest, hchunks'⟩ :=
    @fill_packet _ _ _ _ broken _ _ hjunk hsize hchunks (Nat.le_add_right _ 1) hstream
  have hbuff : (prefixed packet ++ (more ++ junk')).length = buffSize := by
    rw [← List.append_assoc, List.length_append]
    exact hlen
  have hsome : packSize (prefixed packet ++ (more ++ junk')) = some (packet.length : ℤ) :=
    packSize_append hsize _
  have hcursor : (packet.length : ℤ) + 1 ≤ ((prefixed packet ++ more).length : ℤ) := by
    rw [List.length_append, prefixed_length]
    omega
  refine ⟨⟨prefixed packet ++ (more ++ junk'), ((prefixed packet ++ more).length : ℤ)⟩, chunks', ?_,
    ⟨⟨hbuff, ?_⟩, fun _ => ⟨packet.length, hsome, hcursor⟩⟩, hchunks', ?_⟩
  · have hresult : ((prefixed packet ++ (more ++ junk')).drop 1).take
        ((packet.length : ℤ) + 1 - 1).toNat = packet := by
      rw [Int.add_sub_cancel, Int.toNat_natCast]
      exact List.take_left
    unfold readPacketSock
    rw [hshift]
    simp only [Option.bind_eq_bind, Option.bind_some]
    rw [hpack, Option.bind_some, htarget, hfill, Option.bind_some]
    dsimp only
    rw [if_neg (by omega), hresult]
  · show ((prefixed packet ++ more).length : ℤ) ≤ buffSize
    omega
  · have hleft : SockStatics.left
        ⟨prefixed packet ++ (more ++ junk'), ((prefixed packet ++ more).length : ℤ)⟩ = more := by
      unfold SockStatics.left
      dsimp only
      rw [hsome]
      dsimp only
      rw [Int.toNat_natCast, ← List.append_assoc, List.take_left]
      exact List.drop_left
    rw [hleft]
    exact hrest

/-- Less than a packet is an error. -/
theorem readPacketSock_short {s : SockStatics} (hs : s.Ready) (hchunks : Whole chunks)
    (hcut : Cut prefixed Short (s.left ++ chunks.flatten)) :
    ∃ e s' chunks', readPacketSock broken s chunks = some (.error e, s', chunks') ∧ s'.Sane := by
  obtain ⟨packet, ext, hp, hext, hstream⟩ : ∃ packet ext, Short packet ∧ ext ≠ [] ∧
      s.left ++ (chunks.flatten ++ ext) = prefixed packet := by
    rcases hcut with hnil | ⟨packet, ext, hp, hext, hstream⟩
    · refine ⟨[0, 0], prefixed [0, 0], ⟨by decide, by decide⟩, List.cons_ne_nil _ _, ?_⟩
      rw [← List.append_assoc, hnil, List.nil_append]
    · exact ⟨packet, ext, hp, hext, by rw [← List.append_assoc]; exact hstream⟩
  have hsize : packet.length < 128 := Nat.lt_of_le_of_lt hp.2 (by decide)
  obtain ⟨junk, hshift, hjunk⟩ := shift_spec hs
  obtain ⟨n, hpack, htarget⟩ := target_left hjunk hsize (hstream.trans (List.append_nil _).symm)
  obtain ⟨e, buff, chunks', hfill, hbuff⟩ :=
    @fill_short _ _ _ broken _ _ hjunk hsize hchunks (Nat.le_add_right _ 1) _ hext hstream
  refine ⟨e, { s with buffIn := buff }, chunks', ?_, hbuff, hs.sane.buffLen_le⟩
  unfold readPacketSock
  rw [hshift]
  simp only [Option.bind_eq_bind, Option.bind_some]
  rw [hpack, Option.bind_some, htarget, hfill, Option.bind_some]

theorem decodes_prefixed (broken : Bool) :
    Decodes (readPacketSock broken) prefixed id Short SockStatics.Sane SockStatics.Ready
      SockStatics.left where
  sane _ hs := hs.sane
  packet _ _ _ _ hs hchunks hp hstream := readPacketSock_packet hs hchunks hp hstream
  short _ _ hs hchunks hcut := readPacketSock_short hs hchunks hcut

end Beelzebub.Djinn
