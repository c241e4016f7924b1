import Beelzebub.Djinn.Sockets

/-!
# Reading base64 packets off a socket

A read scans what is in the buffer from its start, takes carriage returns out of it in place, and
receives until a newline is there.  The invariant of the loop is that what is scanned, and what is
still to come without its carriage returns, make up the stream.
-/

namespace Beelzebub.Djinn

open Framing

/-- The stream without the carriage returns. -/
def strip (bytes : List UInt8) : List UInt8 := bytes.filter fun c => c ≠ 13

variable {done un rest junk enc pack : List UInt8} {chunks : List (List UInt8)} {broken : Bool}
variable {rounds : ℕ} {packet : Packet}

/-! ## The stream -/

theorem strip_append (xs ys : List UInt8) : strip (xs ++ ys) = strip xs ++ strip ys :=
  List.filter_append xs ys

theorem strip_cons_return (xs : List UInt8) : strip (13 :: xs) = strip xs :=
  List.filter_cons_of_neg (by decide)

theorem strip_cons {c : UInt8} (h : c ≠ 13) (xs : List UInt8) : strip (c :: xs) = c :: strip xs :=
  List.filter_cons_of_pos (decide_eq_true h)

theorem mem_strip {c : UInt8} (h : c ≠ 13) {xs : List UInt8} : c ∈ strip xs ↔ c ∈ xs := by
  unfold strip
  rw [List.mem_filter]
  exact ⟨fun hc => hc.1, fun hc => ⟨hc, decide_eq_true h⟩⟩

/-- A list splits at the first place of an element in one way. -/
theorem split_unique {c : UInt8} {xs ys zs ws : List UInt8} (hx : c ∉ xs) (hy : c ∉ ys)
    (h : xs ++ c :: zs = ys ++ c :: ws) : xs = ys ∧ zs = ws := by
  induction xs generalizing ys with
  | nil =>
      cases ys with
      | nil => exact ⟨rfl, (List.cons.inj h).2⟩
      | cons y ys => exact absurd ((List.cons.inj h).1 ▸ List.mem_cons_self) hy
  | cons x xs ih =>
      cases ys with
      | nil => exact absurd ((List.cons.inj h).1 ▸ List.mem_cons_self) hx
      | cons y ys =>
          obtain ⟨rfl, htail⟩ := List.cons.inj h
          obtain ⟨rfl, rfl⟩ := ih (fun hc => hx (List.mem_cons_of_mem _ hc))
            (fun hc => hy (List.mem_cons_of_mem _ hc)) htail
          exact ⟨rfl, rfl⟩

/-- What comes before the first newline is no longer than what the newline ends. -/
theorem length_le_of_split {xs ys zs : List UInt8} (hx : 10 ∉ xs) (h : xs ++ ys = enc ++ 10 :: zs) :
    xs.length ≤ enc.length := by
  by_contra hlt
  have hget : (xs ++ ys)[enc.length]? = some 10 := by
    rw [h, List.getElem?_append_right (Nat.le_refl _), Nat.sub_self]
    rfl
  rw [List.getElem?_append_left (Nat.lt_of_not_le hlt)] at hget
  exact hx (List.mem_of_getElem? hget)

/-! ## Scanning -/

theorem getElem?_middle (done rest : List UInt8) (c : UInt8) :
    (done ++ c :: rest)[done.length]? = some c := by
  rw [List.getElem?_append_right (Nat.le_refl _), Nat.sub_self]
  rfl

theorem scan_at {buff : List UInt8} {i n : ℕ} {c : UInt8} (h : buff[i]? = some c) :
    scan (n + 1) buff i =
      if c = 10 then some (.found buff (i + (n + 1)) (i + 1))
      else if c = 13 then
        (if n > 0 then move buff i (i + 1) n else some buff).bind fun buff => scan n buff i
      else scan n buff (i + 1) := by
  rw [scan, h]

/-- A carriage return is taken out. -/
theorem take_return (done un junk : List UInt8) :
    ∃ junk', (if un.length > 0 then
        move (done ++ 13 :: (un ++ junk)) done.length (done.length + 1) un.length
      else some (done ++ 13 :: (un ++ junk))) = some (done ++ (un ++ junk')) ∧
      junk'.length = 1 + junk.length := by
  cases un with
  | nil => exact ⟨13 :: junk, rfl, Nat.add_comm _ _⟩
  | cons c un =>
      obtain ⟨junk', hmove, hlen⟩ := move_append done [13] (c :: un) junk
      exact ⟨junk', (if_pos (Nat.succ_pos _)).trans hmove, hlen⟩

/-- The scan goes over what has no newline in it. -/
theorem scan_append (h : 10 ∉ un) (done rest junk : List UInt8) :
    ∃ junk', scan (un.length + rest.length) (done ++ (un ++ (rest ++ junk))) done.length =
        scan rest.length ((done ++ strip un) ++ (rest ++ junk')) (done ++ strip un).length ∧
      (strip un).length + junk'.length = un.length + junk.length := by
  induction un generalizing done junk with
  | nil =>
      refine ⟨junk, ?_, rfl⟩
      show scan (0 + rest.length) _ _ = scan _ (done ++ [] ++ _) (done ++ []).length
      rw [List.append_nil, Nat.zero_add]
      rfl
  | cons c un ih =>
      have hc : c ≠ 10 := fun hc => h (hc ▸ List.mem_cons_self)
      have hun : 10 ∉ un := fun hun => h (List.mem_cons_of_mem _ hun)
      have hrounds : (c :: un).length + rest.length = (un.length + rest.length) + 1 :=
        Nat.add_right_comm _ _ _
      rw [hrounds, List.cons_append, scan_at (getElem?_middle done _ c), if_neg hc]
      by_cases hreturn : c = 13
      · subst hreturn
        obtain ⟨junk₁, hmove, hlen₁⟩ := take_return done (un ++ rest) junk
        rw [List.append_assoc, List.length_append, List.append_assoc] at hmove
        obtain ⟨junk', hscan, hlen⟩ := ih hun done junk₁
        rw [if_pos rfl, hmove, Option.bind_some, hscan, strip_cons_return]
        refine ⟨junk', rfl, ?_⟩
        rw [List.length_cons]
        omega
      · obtain ⟨junk', hscan, hlen⟩ := ih hun (done ++ [c]) junk
        have hdone : done ++ [c] ++ strip un = done ++ strip (c :: un) := by
          rw [strip_cons hreturn, List.append_assoc]
          rfl
        rw [hdone, List.append_assoc, List.length_append] at hscan
        rw [if_neg hreturn]
        refine ⟨junk', hscan, ?_⟩
        rw [strip_cons hreturn, List.length_cons, List.length_cons]
        omega

theorem scan_more (h : 10 ∉ un) (done junk : List UInt8) :
    ∃ junk', scan un.length (done ++ (un ++ junk)) done.length =
        some (.more ((done ++ strip un) ++ junk') (done ++ strip un).length) ∧
      (strip un).length + junk'.length = un.length + junk.length := by
  obtain ⟨junk', hscan, hlen⟩ := scan_append h done [] junk
  exact ⟨junk', hscan, hlen⟩

theorem scan_found (h : 10 ∉ un) (done rest junk : List UInt8) :
    ∃ junk', scan (un ++ 10 :: rest).length (done ++ ((un ++ 10 :: rest) ++ junk)) done.length =
        some (.found ((done ++ strip un) ++ 10 :: (rest ++ junk'))
          ((done ++ strip un).length + (rest.length + 1)) ((done ++ strip un).length + 1)) ∧
      (strip un).length + junk'.length = un.length + junk.length := by
  obtain ⟨junk', hscan, hlen⟩ := scan_append h done (10 :: rest) junk
  rw [List.length_append, List.append_assoc, hscan]
  refine ⟨junk', ?_, hlen⟩
  rw [List.cons_append, List.length_cons, scan_at (getElem?_middle _ _ 10)]
  exact if_pos rfl

/-! ## Receiving -/

/-- The buffer is as large as ever. -/
theorem scanned_length {junk' : List UInt8} (h : (strip un).length + junk'.length =
    un.length + junk.length) (hlen : done.length + (un.length + junk.length) = buffSize) :
    (done ++ strip un).length + junk'.length = buffSize := by
  rw [List.length_append]
  omega

theorem recv_nil (broken : Bool) (size : ℕ) :
    recv broken size [] = .error (if broken then -1 else -2) := if_pos rfl

theorem recv_ok {size : ℕ} (hchunks : Whole chunks) (hne : chunks ≠ []) (hsize : 0 < size) :
    recv broken size chunks = .ok (receive size chunks) := if_neg (hchunks.receive_ne hne hsize)

/-- A newline that is in the buffer is found before anything is received. -/
theorem scanAndReceive_found (h : 10 ∉ un) (hlen : done.length + ((un ++ 10 :: rest).length +
    junk.length) = buffSize) (rounds : ℕ) (chunks : List (List UInt8)) :
    ∃ junk', scanAndReceive broken rounds (done ++ ((un ++ 10 :: rest) ++ junk)) done.length
        (un ++ 10 :: rest).length chunks =
        some (.ok ((done ++ strip un).length + (rest.length + 1), (done ++ strip un).length + 1),
          (done ++ strip un) ++ 10 :: (rest ++ junk'), chunks) ∧
      (done ++ strip un).length + 1 + (rest.length + junk'.length) = buffSize := by
  obtain ⟨junk', hscan, hjunk⟩ := scan_found h done rest junk
  refine ⟨junk', ?_, ?_⟩
  · unfold scanAndReceive
    rw [hscan]
  · rw [List.length_append, List.length_cons] at hlen
    rw [List.length_append]
    omega

/-- Without a newline a connection that is over is an error. -/
theorem scanAndReceive_nil (h : 10 ∉ un) (hlen : done.length + (un.length + junk.length) = buffSize)
    (rounds : ℕ) :
    ∃ e buff, scanAndReceive broken rounds (done ++ (un ++ junk)) done.length un.length [] =
      some (.error e, buff, []) ∧ buff.length = buffSize := by
  obtain ⟨junk', hscan, hjunk⟩ := scan_more h done junk
  have hbuff := scanned_length hjunk hlen
  unfold scanAndReceive
  rw [hscan]
  dsimp only
  rw [recv_nil]
  split
  next => exact ⟨_, _, rfl, by rw [List.length_append]; exact hbuff⟩
  next => exact ⟨_, _, rfl, by rw [List.length_append]; exact hbuff⟩

/-- What is received is stored behind what is scanned. -/
theorem scanAndReceive_step (h : 10 ∉ un) (hlen : done.length + (un.length + junk.length) = buffSize)
    (hroom : (done ++ strip un).length < buffSize) (hchunks : Whole chunks) (hne : chunks ≠ [])
    (rounds : ℕ) :
    ∃ bytes chunks' junk', scanAndReceive broken (rounds + 1) (done ++ (un ++ junk)) done.length
        un.length chunks = scanAndReceive broken rounds ((done ++ strip un) ++ (bytes ++ junk'))
          (done ++ strip un).length bytes.length chunks' ∧
      bytes ≠ [] ∧ bytes ++ chunks'.flatten = chunks.flatten ∧ Whole chunks' ∧
      (done ++ strip un).length + (bytes.length + junk'.length) = buffSize := by
  obtain ⟨junk₁, hscan, hjunk⟩ := scan_more h done junk
  have hbuff := scanned_length hjunk hlen
  have hsize : 0 < buffSize - (done ++ strip un).length := Nat.sub_pos_of_lt hroom
  have hle := receive_length (buffSize - (done ++ strip un).length) chunks
  refine ⟨_, _, junk₁.drop (receive (buffSize - (done ++ strip un).length) chunks).1.length, ?_,
    hchunks.receive_ne hne hsize, receive_flatten _ _, hchunks.receive _, ?_⟩
  · conv => lhs; unfold scanAndReceive
    rw [hscan]
    dsimp only
    rw [if_neg (Nat.not_le.mpr hroom), recv_ok hchunks hne hsize]
    dsimp only
    rw [overwrite_append (by omega), Option.bind_some, List.append_assoc]
  · rw [List.length_drop]
    omega

/-- What a read up to the end of a packet comes to: the packet is first in the buffer, and what is
left follows. -/
def Received (broken : Bool) (rounds : ℕ) (buff : List UInt8) (i n : ℕ) (chunks : List (List UInt8))
    (enc rest : List UInt8) : Prop :=
  ∃ more junk chunks', scanAndReceive broken rounds buff i n chunks =
      some (.ok (enc.length + (more.length + 1), enc.length + 1),
        enc ++ 10 :: (more ++ junk), chunks') ∧
    enc.length + 1 + (more.length + junk.length) = buffSize ∧
    strip (more ++ chunks'.flatten) = rest ∧ Whole chunks'

theorem notMem_scanned (hdone : 10 ∉ done) (hun : 10 ∉ un) : 10 ∉ done ++ strip un := by
  intro h
  rcases List.mem_append.mp h with h | h
  · exact hdone h
  · exact hun ((mem_strip (by decide)).mp h)

theorem received_found (hun : 10 ∈ un) (henc : 10 ∉ enc) (hdone : 10 ∉ done)
    (hlen : done.length + (un.length + junk.length) = buffSize) (hchunks : Whole chunks)
    (hstream : done ++ strip (un ++ chunks.flatten) = enc ++ 10 :: rest) :
    Received broken rounds (done ++ (un ++ junk)) done.length un.length chunks enc rest := by
  obtain ⟨before, more, rfl, hbefore⟩ := List.eq_append_cons_of_mem hun
  obtain ⟨junk', hread, hjunk⟩ := @scanAndReceive_found _ _ _ _ broken hbefore hlen rounds chunks
  have hsplit : (done ++ strip before) ++ 10 :: strip (more ++ chunks.flatten) =
      enc ++ 10 :: rest := by
    rw [← hstream, List.append_assoc before, strip_append before, List.cons_append,
      strip_cons (by decide), List.append_assoc]
  obtain ⟨hfound, hrest⟩ := split_unique (notMem_scanned hdone hbefore) henc hsplit
  rw [hfound] at hread hjunk
  exact ⟨more, junk', chunks, hread, hjunk, hrest, hchunks⟩

/-- A round takes a byte at least. -/
theorem length_flatten_le {bytes : List UInt8} {chunks chunks' : List (List UInt8)} {rounds : ℕ}
    (hbytes : bytes ≠ []) (hflatten : bytes ++ chunks'.flatten = chunks.flatten)
    (hrounds : chunks.flatten.length ≤ rounds + 1) : chunks'.flatten.length ≤ rounds := by
  have hpos := List.length_pos_iff.mpr hbytes
  have hsum := congrArg List.length hflatten
  rw [List.length_append] at hsum
  omega

/-- Bytes keep coming until a newline is there. -/
theorem received_packet (henc : 10 ∉ enc) (hlt : enc.length < buffSize) (hdone : 10 ∉ done)
    (hlen : done.length + (un.length + junk.length) = buffSize) (hchunks : Whole chunks)
    (hrounds : chunks.flatten.length ≤ rounds)
    (hstream : done ++ strip (un ++ chunks.flatten) = enc ++ 10 :: rest) :
    Received broken rounds (done ++ (un ++ junk)) done.length un.length chunks enc rest := by
  induction rounds generalizing done un junk chunks with
  | zero =>
      by_cases hun : 10 ∈ un
      · exact received_found hun henc hdone hlen hchunks hstream
      · have hnil : chunks.flatten = [] := List.eq_nil_of_length_eq_zero (Nat.le_zero.mp hrounds)
        rw [hnil, List.append_nil] at hstream
        refine absurd ?_ (notMem_scanned hdone hun)
        rw [hstream]
        exact List.mem_append_right _ List.mem_cons_self
  | succ rounds ih =>
      by_cases hun : 10 ∈ un
      · exact received_found hun henc hdone hlen hchunks hstream
      · have hscanned := notMem_scanned hdone hun
        rw [strip_append, ← List.append_assoc] at hstream
        have hroom := Nat.lt_of_le_of_lt (length_le_of_split hscanned hstream) hlt
        have hne : chunks ≠ [] := by
          rintro rfl
          refine absurd ?_ hscanned
          change (done ++ strip un) ++ [] = enc ++ 10 :: rest at hstream
          rw [List.append_nil] at hstream
          rw [hstream]
          exact List.mem_append_right _ List.mem_cons_self
        obtain ⟨bytes, chunks', junk', hstep, hbytes, hflatten, hchunks', hlen'⟩ :=
          @scanAndReceive_step _ _ _ _ broken hun hlen hroom hchunks hne rounds
        have hrounds' := length_flatten_le hbytes hflatten hrounds
        have hread := ih hscanned hlen' hchunks' hrounds' (by rw [hflatten]; exact hstream)
        unfold Received at hread ⊢
        rw [hstep]
        exact hread

/-- Where no newline comes a read is an error. -/
theorem scanAndReceive_short (hdone : 10 ∉ done)
    (hlen : done.length + (un.length + junk.length) = buffSize) (hchunks : Whole chunks)
    (hrounds : chunks.flatten.length ≤ rounds)
    (hend : 10 ∉ done ++ strip (un ++ chunks.flatten))
    (hlt : (done ++ strip (un ++ chunks.flatten)).length < buffSize) :
    ∃ e buff chunks', scanAndReceive broken rounds (done ++ (un ++ junk)) done.length un.length
      chunks = some (.error e, buff, chunks') ∧ buff.length = buffSize := by
  rw [strip_append, ← List.append_assoc] at hend hlt
  have hun : 10 ∉ un := by
    intro h
    exact hend (List.mem_append_left _ (List.mem_append_right _ ((mem_strip (by decide)).mpr h)))
  induction rounds generalizing done un junk chunks with
  | zero =>
      have hnil : chunks.flatten = [] := List.eq_nil_of_length_eq_zero (Nat.le_zero.mp hrounds)
      have hchunks : chunks = [] := by
        by_contra hne
        exact hchunks.flatten_ne hne hnil
      subst hchunks
      obtain ⟨e, buff, hread, hbuff⟩ := @scanAndReceive_nil _ _ _ broken hun hlen 0
      exact ⟨e, buff, [], hread, hbuff⟩
  | succ rounds ih =>
      by_cases hne : chunks = []
      · subst hne
        obtain ⟨e, buff, hread, hbuff⟩ :=
          @scanAndReceive_nil _ _ _ broken hun hlen (rounds + 1)
        exact ⟨e, buff, [], hread, hbuff⟩
      · have hroom : (done ++ strip un).length < buffSize := by
          rw [List.length_append] at hlt
          omega
        obtain ⟨bytes, chunks', junk', hstep, hbytes, hflatten, hchunks', hlen'⟩ :=
          @scanAndReceive_step _ _ _ _ broken hun hlen hroom hchunks hne rounds
        have hrounds' := length_flatten_le hbytes hflatten hrounds
        have hmore : strip chunks.flatten = strip bytes ++ strip chunks'.flatten := by
          rw [← hflatten, strip_append]
        rw [hmore, ← List.append_assoc] at hend hlt
        rw [hstep]
        refine ih (notMem_scanned hdone hun) hlen' hchunks' hrounds' hend hlt ?_
        intro h
        exact hend (List.mem_append_left _ (List.mem_append_right _
          ((mem_strip (by decide)).mpr h)))

/-! ## Decoding -/

variable {before : List UInt8} {c₁ c₂ c₃ c₄ : UInt8}

theorem getElem?_quad (before : List UInt8) (c₁ c₂ c₃ c₄ : UInt8) (rest : List UInt8) :
    (before ++ c₁ :: c₂ :: c₃ :: c₄ :: rest)[before.length]? = some c₁ ∧
    (before ++ c₁ :: c₂ :: c₃ :: c₄ :: rest)[before.length + 1]? = some c₂ ∧
    (before ++ c₁ :: c₂ :: c₃ :: c₄ :: rest)[before.length + 2]? = some c₃ ∧
    (before ++ c₁ :: c₂ :: c₃ :: c₄ :: rest)[before.length + 3]? = some c₄ := by
  have hget (k : ℕ) : (before ++ c₁ :: c₂ :: c₃ :: c₄ :: rest)[before.length + k]? =
      (c₁ :: c₂ :: c₃ :: c₄ :: rest)[k]? := by
    rw [List.getElem?_append_right (Nat.le_add_right _ _), Nat.add_sub_cancel_left]
  exact ⟨hget 0, hget 1, hget 2, hget 3⟩

theorem decodeLast_quad (before : List UInt8) (c₁ c₂ c₃ c₄ : UInt8) (rest pack : List UInt8) :
    decodeLast (before ++ c₁ :: c₂ :: c₃ :: c₄ :: rest) before.length pack =
      if c₃ = 61 then unpack₁ 3072 pack c₁ c₂
      else if c₄ = 61 then unpack₂ 3072 pack c₁ c₂ c₃ else unpack₃ 3072 pack c₁ c₂ c₃ c₄ := by
  obtain ⟨h₁, h₂, h₃, h₄⟩ := getElem?_quad before c₁ c₂ c₃ c₄ rest
  unfold decodeLast
  rw [h₁, h₂, h₃, h₄]
  rfl

theorem decode_last {buff : List UInt8} {lastPackEnd i : ℕ} (h : lastPackEnd = i + 5)
    (rounds : ℕ) (pack : List UInt8) :
    decode buff lastPackEnd rounds i pack = decodeLast buff i pack := by
  have hquad : lastQuad lastPackEnd = i := by
    unfold lastQuad
    rw [if_pos (by omega)]
    omega
  unfold decode
  rw [hquad, if_neg (Nat.lt_irrefl i)]

theorem decode_quad {lastPackEnd : ℕ} (h : before.length + 5 < lastPackEnd) (rounds : ℕ)
    (c₁ c₂ c₃ c₄ : UInt8) (rest pack : List UInt8) :
    decode (before ++ c₁ :: c₂ :: c₃ :: c₄ :: rest) lastPackEnd (rounds + 1) before.length pack =
      (unpack₃ 3072 pack c₁ c₂ c₃ c₄).bind fun pack =>
        decode (before ++ c₁ :: c₂ :: c₃ :: c₄ :: rest) lastPackEnd rounds (before.length + 4)
          pack := by
  obtain ⟨h₁, h₂, h₃, h₄⟩ := getElem?_quad before c₁ c₂ c₃ c₄ rest
  have hquad : before.length < lastQuad lastPackEnd := by
    unfold lastQuad
    rw [if_pos (by omega)]
    omega
  conv => lhs; unfold decode
  rw [if_pos hquad, h₁, h₂, h₃, h₄]
  rfl

/-- A packet that is not empty is decoded behind what is decoded of it already. -/
theorem decode_spec (packet : Packet) (hne : packet ≠ []) (hrounds : packet.length ≤ rounds)
    (hroom : pack.length + packet.length ≤ 3072) (before junk : List UInt8) :
    decode (before ++ (base64 packet ++ 10 :: junk)) (before.length + (base64 packet).length + 1)
      rounds before.length pack = some (pack ++ packet) := by
  have hend (p : Packet) (h : (p.length + 2) / 3 = 1) {i : ℕ} :
      i + (base64 p).length + 1 = i + 5 := by
    rw [base64_length, h]
  induction packet using packet_induction generalizing rounds before pack with
  | nil => exact absurd rfl hne
  | one a =>
      rw [decode_last (hend [a] (by simp))]
      refine (decodeLast_quad before _ _ _ _ (10 :: junk) pack).trans ?_
      rw [if_pos rfl]
      exact unpack₁_spec hroom a
  | two a b =>
      rw [decode_last (hend [a, b] (by simp))]
      refine (decodeLast_quad before _ _ _ _ (10 :: junk) pack).trans ?_
      rw [if_neg (digit_spec (sextet₃_lt b 0)).2.2.1, if_pos rfl]
      exact unpack₂_spec hroom a b
  | three a b c rest ih =>
      rw [List.length_cons, List.length_cons, List.length_cons] at hroom hrounds
      have hroom' : pack.length + 3 ≤ 3072 := by omega
      have hunpack := unpack₃_spec hroom' a b c
      cases rest with
      | nil =>
          rw [decode_last (hend [a, b, c] (by simp))]
          refine (decodeLast_quad before _ _ _ _ (10 :: junk) pack).trans ?_
          rw [if_neg (digit_spec (sextet₃_lt b c)).2.2.1, if_neg (digit_spec (sextet₄_lt c)).2.2.1]
          exact hunpack
      | cons d rest =>
          obtain ⟨rounds, rfl⟩ : ∃ r, rounds = r + 1 := ⟨rounds - 1, by omega⟩
          have hfour : (base64 (a :: b :: c :: d :: rest)).length =
              4 + (base64 (d :: rest)).length := by
            rw [base64_length, base64_length, List.length_cons, List.length_cons, List.length_cons]
            omega
          have hpos : 4 ≤ (base64 (d :: rest)).length := by
            rw [base64_length, List.length_cons]
            omega
          have hlen : ([a, b, c] : List UInt8).length = 3 := rfl
          have hrest := @ih (pack ++ [a, b, c]) rounds (List.cons_ne_nil d rest) (by omega)
            (by rw [List.length_append, hlen]; omega)
            (before ++ [digit (sextet₁ a), digit (sextet₂ a b), digit (sextet₃ b c),
              digit (sextet₄ c)])
          rw [hfour]
          refine (decode_quad (by omega) rounds _ _ _ _
            (base64 (d :: rest) ++ 10 :: junk) pack).trans ?_
          rw [hunpack, Option.bind_some]
          rw [List.append_assoc, List.length_append] at hrest
          rw [List.append_assoc] at hrest
          have hend : before.length + (4 + (base64 (d :: rest)).length) + 1 =
              before.length + 4 + (base64 (d :: rest)).length + 1 := by omega
          rw [hend]
          exact hrest

/-! ## One read -/

/-- The size of the buffer, and that no more than that is in use. -/
structure Base64Statics.Ready (s : Base64Statics) : Prop where
  length : s.buffIn.length = buffSize
  buffLen_le : s.buffLen ≤ buffSize

/-- What came behind the packet that was returned last. -/
def Base64Statics.left (s : Base64Statics) : List UInt8 :=
  (s.buffIn.take s.buffLen).drop s.lastPackEnd

/-- The packets that the kernel sends. -/
def Admitted (packet : Packet) : Prop := 2 ≤ packet.length ∧ packet.length ≤ 1024

theorem shiftBase64_spec {s : Base64Statics} (h : s.Ready) :
    ∃ junk, shiftBase64 s = some (s.left ++ junk, s.left.length) ∧
      s.left.length + junk.length = buffSize := by
  have hle := h.buffLen_le
  have hlen : s.left.length = s.buffLen - s.lastPackEnd := by
    unfold Base64Statics.left
    rw [List.length_drop, List.length_take, h.length, Nat.min_eq_left hle]
  unfold shiftBase64
  split
  next hleft =>
    have hgap : (s.buffIn.take s.lastPackEnd).length = s.lastPackEnd := by
      rw [List.length_take, h.length]
      omega
    have hsplit : s.buffIn.take s.lastPackEnd ++ (s.left ++ s.buffIn.drop s.buffLen) = s.buffIn := by
      have htake : s.buffIn.take s.lastPackEnd ++ s.left = s.buffIn.take s.buffLen := by
        have hfront := List.take_append_drop s.lastPackEnd (s.buffIn.take s.buffLen)
        rw [List.take_take, Nat.min_eq_left (Nat.le_of_lt hleft)] at hfront
        exact hfront
      rw [← List.append_assoc, htake, List.take_append_drop]
    obtain ⟨junk, hmove, hjunk⟩ := move_append [] (s.buffIn.take s.lastPackEnd) s.left
      (s.buffIn.drop s.buffLen)
    rw [List.nil_append, hsplit, List.length_nil, Nat.zero_add, hgap, hlen, List.nil_append] at hmove
    refine ⟨junk, ?_, ?_⟩
    · rw [hmove, hlen]
      rfl
    · rw [hjunk, hgap, hlen, List.length_drop, h.length]
      omega
  next hnone =>
    have hnil : s.left = [] := List.eq_nil_of_length_eq_zero (by omega)
    refine ⟨s.buffIn, ?_, ?_⟩
    · rw [hnil]
      rfl
    · rw [hnil, h.length]
      rfl

theorem newline_notMem (packet : Packet) : 10 ∉ base64 packet :=
  fun h => (base64_mem packet 10 h).1 rfl

theorem Admitted.length_lt (h : Admitted packet) : (base64 packet).length < 4096 := by
  have hle := h.2
  rw [base64_length]
  omega

theorem Admitted.ne_nil (h : Admitted packet) : packet ≠ [] := by
  rintro rfl
  exact absurd h.1 (by decide)

/-- A packet that comes next is returned. -/
theorem readPacketSockBase64_packet {s : Base64Statics} (hs : s.Ready) (hchunks : Whole chunks)
    (hp : Admitted packet) (hstream : strip (s.left ++ chunks.flatten) = lined packet ++ rest) :
    ∃ s' chunks', readPacketSockBase64 broken s chunks = some (.ok packet, s', chunks') ∧
      s'.Ready ∧ Whole chunks' ∧ strip (s'.left ++ chunks'.flatten) = rest := by
  obtain ⟨junk, hshift, hjunk⟩ := shiftBase64_spec hs
  have hwhole : ([] : List UInt8).length + (s.left.length + junk.length) = buffSize :=
    (Nat.zero_add _).trans hjunk
  have hstream' : [] ++ strip (s.left ++ chunks.flatten) = base64 packet ++ 10 :: rest := by
    rw [List.nil_append, hstream, lined, List.append_assoc]
    rfl
  obtain ⟨more, junk', chunks', hread, hlen, hrest, hchunks'⟩ :=
    @received_packet [] _ _ _ _ _ broken _ (newline_notMem packet) hp.length_lt
      (fun h => nomatch h) hwhole hchunks (Nat.le_add_right _ 1) hstream'
  have hroom : ([] : List UInt8).length + packet.length ≤ 3072 := by
    have hle := hp.2
    rw [List.length_nil]
    omega
  have hrounds : packet.length ≤ buffSize := Nat.le_trans hp.2 (by decide)
  have hdecode := decode_spec packet hp.ne_nil hrounds hroom [] (more ++ junk')
  simp only [List.nil_append, List.length_nil, Nat.zero_add] at hdecode hread
  refine ⟨⟨base64 packet ++ 10 :: (more ++ junk'), (base64 packet).length + (more.length + 1),
    (base64 packet).length + 1⟩, chunks', ?_, ⟨?_, ?_⟩, hchunks', ?_⟩
  · unfold readPacketSockBase64
    rw [hshift]
    simp only [Option.bind_eq_bind, Option.bind_some]
    rw [hread]
    simp only [Option.bind_some]
    rw [hdecode, Option.bind_some]
  · show (base64 packet ++ 10 :: (more ++ junk')).length = buffSize
    rw [List.length_append, List.length_cons, List.length_append]
    omega
  · show (base64 packet).length + (more.length + 1) ≤ buffSize
    omega
  · have hleft : Base64Statics.left ⟨base64 packet ++ 10 :: (more ++ junk'),
        (base64 packet).length + (more.length + 1), (base64 packet).length + 1⟩ = more := by
      have hsplit : base64 packet ++ 10 :: (more ++ junk') =
          ((base64 packet ++ [10]) ++ more) ++ junk' := by
        rw [List.append_assoc, List.append_assoc]
        rfl
      have hend : (base64 packet).length + (more.length + 1) =
          ((base64 packet ++ [10]) ++ more).length := by
        rw [List.length_append, List.length_append, List.length_singleton]
        omega
      have hone : (base64 packet).length + 1 = (base64 packet ++ [10]).length := by
        rw [List.length_append, List.length_singleton]
      unfold Base64Statics.left
      dsimp only
      rw [hsplit, hend, List.take_left, hone, List.drop_left]
    rw [hleft]
    exact hrest

/-- Less than a packet is an error. -/
theorem readPacketSockBase64_short {s : Base64Statics} (hs : s.Ready) (hchunks : Whole chunks)
    (hcut : Cut lined Admitted (strip (s.left ++ chunks.flatten))) :
    ∃ e s' chunks', readPacketSockBase64 broken s chunks = some (.error e, s', chunks') ∧
      s'.Ready := by
  obtain ⟨junk, hshift, hjunk⟩ := shiftBase64_spec hs
  have hwhole : ([] : List UInt8).length + (s.left.length + junk.length) = buffSize :=
    (Nat.zero_add _).trans hjunk
  have hends : 10 ∉ strip (s.left ++ chunks.flatten) ∧
      (strip (s.left ++ chunks.flatten)).length < buffSize := by
    rcases hcut with hnil | ⟨p, ext, hp, hext, hp'⟩
    · rw [hnil]
      exact ⟨(fun h => nomatch h), by decide⟩
    · obtain ⟨ext, c, rfl⟩ := List.eq_nil_or_concat ext |>.resolve_left hext
      rw [lined, List.concat_eq_append, ← List.append_assoc] at hp'
      obtain ⟨henc, -⟩ := List.append_inj' hp' rfl
      refine ⟨fun h => newline_notMem p (henc ▸ List.mem_append_left _ h), ?_⟩
      have hlt := hp.length_lt
      rw [← henc, List.length_append] at hlt
      exact Nat.lt_of_le_of_lt (Nat.le_add_right _ _) hlt
  obtain ⟨e, buff, chunks', hread, hbuff⟩ :=
    @scanAndReceive_short [] _ _ _ broken _ (fun h => nomatch h) hwhole hchunks
      (Nat.le_add_right _ 1) hends.1 hends.2
  refine ⟨e, { s with buffIn := buff, lastPackEnd := 0 }, chunks', ?_, hbuff, hs.buffLen_le⟩
  unfold readPacketSockBase64
  rw [hshift]
  simp only [Option.bind_eq_bind, Option.bind_some]
  simp only [List.nil_append, List.length_nil] at hread
  rw [hread, Option.bind_some]

/-- Whatever is left over counts as part of the stream. -/
theorem decodes_base64 (broken : Bool) :
    Decodes (readPacketSockBase64 broken) lined strip Admitted Base64Statics.Ready
      Base64Statics.Ready Base64Statics.left where
  sane _ hs := hs
  packet _ _ _ _ hs hchunks hp hstream := readPacketSockBase64_packet hs hchunks hp hstream
  short _ _ hs hchunks hcut := readPacketSockBase64_short hs hchunks hcut

end Beelzebub.Djinn
