import Beelzebub.Djinn.Base64

/-!
# The debugger interface on a serial port

The kernel sends packets through a serial port with their size in front, or encoded in base64 with
a newline behind, and polls the port for packets in the same forms.  Bytes that are sent go onto a
stream.  A poll waits for the bytes of a packet that has begun; where they never come, and where a
buffer is left, the outcome is `none`.
-/

namespace Beelzebub.Djinn

/-! ## The code -/

/-- What went out is only for the record. -/
structure ManagedSerialPort where
  queueSize : ℕ
  queueSize_pos : 0 < queueSize
  outputCount : ℕ
  sent : List UInt8

inductive DjinnSendRes where
  | success
  | await
  | packetSizeOor
  deriving DecidableEq

inductive DjinnPollRes where
  | success
  | nothing
  | packetSizeOor
  deriving DecidableEq

namespace ManagedSerialPort

/-- The queue is full as far as the port knows, and its status is to be read. -/
def full (port : ManagedSerialPort) : Bool := port.outputCount ≥ port.queueSize

/-- Once `CanWrite` has found the queue empty, if it was asked. -/
def settled (port : ManagedSerialPort) : ManagedSerialPort :=
  if port.full then { port with outputCount := 0 } else port

/-- `Out8n`. -/
def out (port : ManagedSerialPort) (bytes : List UInt8) : ManagedSerialPort :=
  { port with
    outputCount := port.outputCount + bytes.length
    sent := port.sent ++ bytes }

end ManagedSerialPort

/-- The loop over the rest of a packet, for so many rounds at most. -/
def sendRest : ℕ → ManagedSerialPort → Packet → Option ManagedSerialPort
  | rounds, port, packet =>
      if packet = [] then some port
      else
        match rounds with
        | 0 => none
        | rounds + 1 =>
            let port := port.settled
            let j := min (port.queueSize - port.outputCount) packet.length
            sendRest rounds (port.out (packet.take j)) (packet.drop j)

/-- Whether the port can be written to, where it is asked first, is up to the port. -/
def djinnSendPacketThroughSerialPort (canWrite : Bool) (port : ManagedSerialPort)
    (packet : Packet) : Option (DjinnSendRes × ManagedSerialPort) :=
  if packet.length > 0xFF then some (.packetSizeOor, port)
  else if port.full && !canWrite then some (.await, port)
  else
    let port := port.settled.out [UInt8.ofNat packet.length]
    (sendRest packet.length port packet).map fun port => (.success, port)

/-- `WriteByte`, which waits until the port can be written to. -/
def writeByte (port : ManagedSerialPort) (val : UInt8) : ManagedSerialPort := port.settled.out [val]

/-- `WriteByte` of a character of the table. -/
def writeChar (port : ManagedSerialPort) (i : UInt8) : Option ManagedSerialPort :=
  (base64Char i).map (writeByte port)

def writeBase64 (port : ManagedSerialPort) : Packet → Option ManagedSerialPort
  | a :: b :: c :: rest => do
      let port ← writeChar port (a >>> 2)
      let port ← writeChar port ((a &&& 0x03) <<< 4 ||| b >>> 4)
      let port ← writeChar port ((b &&& 0x0f) <<< 2 ||| c >>> 6)
      let port ← writeChar port (c &&& 0x3f)
      writeBase64 port rest
  | [a, b] => do
      let port ← writeChar port (a >>> 2)
      let port ← writeChar port ((a &&& 0x03) <<< 4 ||| b >>> 4)
      let port ← writeChar port ((b &&& 0x0f) <<< 2)
      some (writeByte port 61)
  | [a] => do
      let port ← writeChar port (a >>> 2)
      let port ← writeChar port ((a &&& 0x03) <<< 4)
      some (writeByte (writeByte port 61) 61)
  | [] => some port

def djinnSendPacketThroughSerialPortBase64 (canWrite : Bool) (port : ManagedSerialPort)
    (packet : Packet) : Option (DjinnSendRes × ManagedSerialPort) :=
  if port.full && !canWrite then some (.await, port)
  else (writeBase64 port.settled packet).map fun port => (.success, writeByte port 10)

/-- The packets of several calls, and those among them that were sent. -/
def sendAll
    (send : Bool → ManagedSerialPort → Packet → Option (DjinnSendRes × ManagedSerialPort)) :
    ManagedSerialPort → List (Bool × Packet) → Option (ManagedSerialPort × List Packet)
  | port, [] => some (port, [])
  | port, (canWrite, packet) :: calls =>
      match send canWrite port packet with
      | none => none
      | some (.success, port) =>
          (sendAll send port calls).map fun r => (r.1, packet :: r.2)
      | some (_, port) => sendAll send port calls

/-- What a poll returns, stores in `*len` and in the buffer, and leaves on the stream. -/
structure Polled where
  res : DjinnPollRes
  len : Option ℕ
  buffer : List UInt8
  stream : List UInt8

/-- The loop that reads up to four characters, from `j` on: `j` at its end, the characters, and
the rest of the stream. -/
def requestChars : List UInt8 → ℕ → List UInt8 → Option (ℕ × List UInt8 × List UInt8)
  | _, _, [] => none
  | temp, j, c :: stream =>
      if c = 10 then some (j, temp.set j c, stream)
      else if j + 1 < 4 then requestChars (temp.set j c) (j + 1) stream
      else some (j + 1, temp.set j c, stream)

/-- Behind padding, the end of the packet is read without a look at it. -/
def discardEnd (buffer : List UInt8) : List UInt8 → Option Polled
  | [] => none
  | _ :: stream => some ⟨.success, some buffer.length, buffer, stream⟩

/-- From `request_chars` on, for so many rounds at most. -/
def pollBase64 (capacity : ℕ) : ℕ → List UInt8 → List UInt8 → List UInt8 → Option Polled
  | 0, _, _, _ => none
  | rounds + 1, buffer, temp, stream =>
      match requestChars temp 0 stream with
      | none => none
      | some (0, _, stream) => some ⟨.success, some buffer.length, buffer, stream⟩
      | some (_ + 1, [c₁, c₂, c₃, c₄], stream) =>
          if c₃ = 61 then
            if buffer.length + 1 > capacity then
              some ⟨.packetSizeOor, some (buffer.length + 1), buffer, stream⟩
            else (unpack₁ capacity buffer c₁ c₂).bind fun buffer => discardEnd buffer stream
          else if c₄ = 61 then
            if buffer.length + 2 > capacity then
              some ⟨.packetSizeOor, some (buffer.length + 2), buffer, stream⟩
            else (unpack₂ capacity buffer c₁ c₂ c₃).bind fun buffer => discardEnd buffer stream
          else
            if buffer.length + 3 > capacity then
              some ⟨.packetSizeOor, some (buffer.length + 3), buffer, stream⟩
            else
              (unpack₃ capacity buffer c₁ c₂ c₃ c₄).bind fun buffer =>
                pollBase64 capacity rounds buffer [c₁, c₂, c₃, c₄] stream
      | some _ => none

/-- What a poll is called with.  `temp` holds whatever is on the stack at first. -/
structure Poll where
  canRead : Bool
  capacity : ℕ
  temp : List UInt8
  temp_length : temp.length = 4

def djinnPollPacketFromSerialPortBase64 (poll : Poll) (stream : List UInt8) : Option Polled :=
  if poll.canRead then pollBase64 poll.capacity (stream.length + 1) [] poll.temp stream
  else some ⟨.nothing, none, [], stream⟩

/-- The packets that several polls return, with their lengths. -/
def pollAll : List Poll → List UInt8 → Option (List (ℕ × Packet))
  | [], _ => some []
  | poll :: polls, stream =>
      match djinnPollPacketFromSerialPortBase64 poll stream with
      | none => none
      | some ⟨.success, some len, buffer, stream⟩ =>
          (pollAll polls stream).map fun r => ((len, buffer) :: r)
      | some polled => pollAll polls polled.stream

/-! ## Sending -/

/-- What goes out for a packet with its size in front. -/
def prefixed (packet : Packet) : List UInt8 := UInt8.ofNat packet.length :: packet

/-- What goes out for a packet in base64. -/
def lined (packet : Packet) : List UInt8 := base64 packet ++ [10]

variable {port : ManagedSerialPort} {packet : Packet} {i : UInt8} {canWrite : Bool}

@[simp] theorem sent_settled (port : ManagedSerialPort) : port.settled.sent = port.sent := by
  unfold ManagedSerialPort.settled
  split
  next => rfl
  next => rfl

@[simp] theorem queueSize_settled (port : ManagedSerialPort) :
    port.settled.queueSize = port.queueSize := by
  unfold ManagedSerialPort.settled
  split
  next => rfl
  next => rfl

theorem settled_lt (port : ManagedSerialPort) : port.settled.outputCount < port.queueSize := by
  unfold ManagedSerialPort.settled ManagedSerialPort.full
  split
  next => exact port.queueSize_pos
  next hfull =>
    simp only [decide_eq_true_eq] at hfull
    exact Nat.lt_of_not_le hfull

@[simp] theorem sent_out (port : ManagedSerialPort) (bytes : List UInt8) :
    (port.out bytes).sent = port.sent ++ bytes := rfl

/-- Every round sends something. -/
theorem sendRest_spec {rounds : ℕ} (h : packet.length ≤ rounds) (port : ManagedSerialPort) :
    ∃ port', sendRest rounds port packet = some port' ∧ port'.sent = port.sent ++ packet := by
  induction rounds generalizing port packet with
  | zero =>
      have hnil := List.eq_nil_of_length_eq_zero (Nat.le_zero.mp h)
      subst hnil
      exact ⟨port, if_pos rfl, (List.append_nil _).symm⟩
  | succ rounds ih =>
      unfold sendRest
      split
      next hnil =>
        subst hnil
        exact ⟨port, rfl, (List.append_nil _).symm⟩
      next hne =>
        have hpos := List.length_pos_iff.mpr hne
        have hlt := settled_lt port
        dsimp only
        rw [queueSize_settled]
        generalize hj : min (port.queueSize - port.settled.outputCount) packet.length = j
        have hdrop : (packet.drop j).length ≤ rounds := by
          rw [List.length_drop]
          omega
        obtain ⟨port', hsend, hsent⟩ := ih hdrop (port.settled.out (packet.take j))
        refine ⟨port', hsend, ?_⟩
        rw [hsent, sent_out, sent_settled, List.append_assoc, List.take_append_drop]

@[simp] theorem sent_writeByte (port : ManagedSerialPort) (val : UInt8) :
    (writeByte port val).sent = port.sent ++ [val] := by
  unfold writeByte
  rw [sent_out, sent_settled]

theorem writeChar_eq (h : i.toNat < 64) (port : ManagedSerialPort) :
    writeChar port i = some (writeByte port (digit i)) := by
  unfold writeChar
  rw [(digit_spec h).1]
  rfl

theorem writeBase64_spec (packet : Packet) (port : ManagedSerialPort) :
    ∃ port', writeBase64 port packet = some port' ∧ port'.sent = port.sent ++ base64 packet := by
  induction packet using packet_induction generalizing port with
  | nil => exact ⟨port, by rw [writeBase64], (List.append_nil _).symm⟩
  | one a =>
      have h₁ := writeChar_eq (sextet₁_lt a)
      have h₂ := writeChar_eq (sextet₂_lt a 0)
      rw [sextet₂_zero] at h₂
      refine ⟨writeByte (writeByte (writeByte (writeByte port (digit (sextet₁ a)))
        (digit ((a &&& 0x03) <<< 4))) 61) 61, ?_, ?_⟩
      · rw [writeBase64, ← sextet₁, h₁]
        simp only [Option.bind_eq_bind, Option.bind_some]
        rw [h₂]
        rfl
      · simp [base64, sextet₂_zero]
  | two a b =>
      have h₁ := writeChar_eq (sextet₁_lt a)
      have h₂ := writeChar_eq (sextet₂_lt a b)
      have h₃ := writeChar_eq (sextet₃_lt b 0)
      rw [sextet₃_zero] at h₃
      refine ⟨writeByte (writeByte (writeByte (writeByte port (digit (sextet₁ a)))
        (digit (sextet₂ a b))) (digit ((b &&& 0x0f) <<< 2))) 61, ?_, ?_⟩
      · rw [writeBase64, ← sextet₁, ← sextet₂, h₁]
        simp only [Option.bind_eq_bind, Option.bind_some]
        rw [h₂, Option.bind_some, h₃]
        rfl
      · simp [base64, sextet₃_zero]
  | three a b c rest ih =>
      have h₁ := writeChar_eq (sextet₁_lt a)
      have h₂ := writeChar_eq (sextet₂_lt a b)
      have h₃ := writeChar_eq (sextet₃_lt b c)
      have h₄ := writeChar_eq (sextet₄_lt c)
      obtain ⟨port', hwrite, hsent⟩ := ih (writeByte (writeByte (writeByte (writeByte port
        (digit (sextet₁ a))) (digit (sextet₂ a b))) (digit (sextet₃ b c))) (digit (sextet₄ c)))
      refine ⟨port', ?_, ?_⟩
      · rw [writeBase64, ← sextet₁, ← sextet₂, ← sextet₃, ← sextet₄, h₁]
        simp only [Option.bind_eq_bind, Option.bind_some]
        rw [h₂, Option.bind_some, h₃, Option.bind_some, h₄, Option.bind_some, hwrite]
      · rw [hsent]
        simp [base64]

/-- What one call does: the packet goes out as a whole, or nothing does. -/
def Sends (send : Bool → ManagedSerialPort → Packet → Option (DjinnSendRes × ManagedSerialPort))
    (encode : Packet → List UInt8) : Prop :=
  ∀ canWrite port packet, ∃ res port', send canWrite port packet = some (res, port') ∧
    port'.sent = port.sent ++ if res = .success then encode packet else []

theorem sends_prefixed : Sends djinnSendPacketThroughSerialPort prefixed := by
  intro canWrite port packet
  unfold djinnSendPacketThroughSerialPort
  split
  next => exact ⟨.packetSizeOor, port, rfl, (List.append_nil _).symm⟩
  next =>
    split
    next => exact ⟨.await, port, rfl, (List.append_nil _).symm⟩
    next =>
      obtain ⟨port', hsend, hsent⟩ := sendRest_spec (Nat.le_refl packet.length)
        (port.settled.out [UInt8.ofNat packet.length])
      dsimp only
      rw [hsend]
      refine ⟨.success, port', rfl, ?_⟩
      rw [hsent, sent_out, sent_settled, List.append_assoc]
      rfl

theorem sends_base64 : Sends djinnSendPacketThroughSerialPortBase64 lined := by
  intro canWrite port packet
  unfold djinnSendPacketThroughSerialPortBase64
  split
  next => exact ⟨.await, port, rfl, (List.append_nil _).symm⟩
  next =>
    obtain ⟨port', hwrite, hsent⟩ := writeBase64_spec packet port.settled
    rw [hwrite]
    refine ⟨.success, writeByte port' 10, rfl, ?_⟩
    rw [sent_writeByte, hsent, sent_settled, List.append_assoc]
    rfl

variable {send : Bool → ManagedSerialPort → Packet → Option (DjinnSendRes × ManagedSerialPort)}
variable {encode : Packet → List UInt8}

/-- The stream holds the packets that were sent, one behind the other. -/
theorem Sends.sendAll (h : Sends send encode) (calls : List (Bool × Packet))
    (port : ManagedSerialPort) :
    ∃ port' given, sendAll send port calls = some (port', given) ∧
      given.Sublist (calls.map Prod.snd) ∧ port'.sent = port.sent ++ given.flatMap encode := by
  induction calls generalizing port with
  | nil => exact ⟨port, [], rfl, .slnil, (List.append_nil _).symm⟩
  | cons call calls ih =>
      obtain ⟨canWrite, packet⟩ := call
      obtain ⟨res, port₁, hsend, hsent₁⟩ := h canWrite port packet
      obtain ⟨port', given, hall, hgiven, hsent⟩ := ih port₁
      unfold Djinn.sendAll
      rw [hsend]
      cases res with
      | success =>
          refine ⟨port', packet :: given, ?_, hgiven.cons_cons packet, ?_⟩
          · dsimp only
            rw [hall]
            rfl
          · rw [hsent, hsent₁, if_pos rfl, List.flatMap_cons, List.append_assoc]
      | await =>
          refine ⟨port', given, hall, hgiven.cons packet, ?_⟩
          rw [hsent, hsent₁, if_neg (by decide), List.append_nil]
      | packetSizeOor =>
          refine ⟨port', given, hall, hgiven.cons packet, ?_⟩
          rw [hsent, hsent₁, if_neg (by decide), List.append_nil]

/-! ## Polling -/

variable {capacity : ℕ} {temp buffer stream : List UInt8}

/-- Four characters, none of them an end. -/
theorem requestChars_quad {c₁ c₂ c₃ c₄ : UInt8} (htemp : temp.length = 4) (h₁ : c₁ ≠ 10)
    (h₂ : c₂ ≠ 10) (h₃ : c₃ ≠ 10) (h₄ : c₄ ≠ 10) (stream : List UInt8) :
    requestChars temp 0 (c₁ :: c₂ :: c₃ :: c₄ :: stream) =
      some (4, [c₁, c₂, c₃, c₄], stream) := by
  obtain ⟨t₁, t₂, t₃, t₄, rfl⟩ : ∃ t₁ t₂ t₃ t₄, temp = [t₁, t₂, t₃, t₄] := by
    match temp, htemp with
    | [t₁, t₂, t₃, t₄], _ => exact ⟨t₁, t₂, t₃, t₄, rfl⟩
  simp [requestChars, h₁, h₂, h₃, h₄]

theorem requestChars_end (temp stream : List UInt8) :
    requestChars temp 0 (10 :: stream) = some (0, temp.set 0 10, stream) := if_pos rfl

/-- A poll reads one packet, behind what it has read of it already. -/
theorem pollBase64_spec (packet : Packet) {rounds : ℕ} (hrounds : packet.length < rounds)
    (htemp : temp.length = 4) (hcap : buffer.length + packet.length ≤ capacity)
    (stream : List UInt8) :
    pollBase64 capacity rounds buffer temp (base64 packet ++ 10 :: stream) =
      some ⟨.success, some (buffer.length + packet.length), buffer ++ packet, stream⟩ := by
  induction packet using packet_induction generalizing rounds buffer temp with
  | nil =>
      obtain ⟨rounds, rfl⟩ := Nat.exists_eq_succ_of_ne_zero (Nat.ne_of_gt hrounds)
      simp [pollBase64, base64, requestChars_end]
  | one a =>
      obtain ⟨rounds, rfl⟩ := Nat.exists_eq_succ_of_ne_zero (Nat.ne_zero_of_lt hrounds)
      have h₁ := (digit_spec (sextet₁_lt a)).2.2.2.1
      have h₂ := (digit_spec (sextet₂_lt a 0)).2.2.2.1
      have hcap : buffer.length + 1 ≤ capacity := hcap
      show pollBase64 capacity (rounds + 1) buffer temp
        (digit (sextet₁ a) :: digit (sextet₂ a 0) :: 61 :: 61 :: 10 :: stream) = _
      unfold pollBase64
      rw [requestChars_quad htemp h₁ h₂ (by decide) (by decide)]
      dsimp only
      rw [if_pos rfl, if_neg (Nat.not_lt.mpr hcap), unpack₁_spec hcap]
      simp [discardEnd]
  | two a b =>
      obtain ⟨rounds, rfl⟩ := Nat.exists_eq_succ_of_ne_zero (Nat.ne_zero_of_lt hrounds)
      have h₁ := (digit_spec (sextet₁_lt a)).2.2.2.1
      have h₂ := (digit_spec (sextet₂_lt a b)).2.2.2.1
      have h₃ := (digit_spec (sextet₃_lt b 0)).2.2
      have hcap : buffer.length + 2 ≤ capacity := hcap
      show pollBase64 capacity (rounds + 1) buffer temp
        (digit (sextet₁ a) :: digit (sextet₂ a b) :: digit (sextet₃ b 0) :: 61 :: 10 :: stream) = _
      unfold pollBase64
      rw [requestChars_quad htemp h₁ h₂ h₃.2.1 (by decide)]
      dsimp only
      rw [if_neg h₃.1, if_pos rfl, if_neg (Nat.not_lt.mpr hcap), unpack₂_spec hcap]
      simp [discardEnd]
  | three a b c rest ih =>
      obtain ⟨rounds, rfl⟩ := Nat.exists_eq_succ_of_ne_zero (Nat.ne_zero_of_lt hrounds)
      have h₁ := (digit_spec (sextet₁_lt a)).2.2.2.1
      have h₂ := (digit_spec (sextet₂_lt a b)).2.2.2.1
      have h₃ := (digit_spec (sextet₃_lt b c)).2.2
      have h₄ := (digit_spec (sextet₄_lt c)).2.2
      simp only [List.length_cons] at hcap hrounds
      have hcap' : buffer.length + 3 ≤ capacity := by omega
      have hthree : [a, b, c].length = 3 := rfl
      show pollBase64 capacity (rounds + 1) buffer temp
        (digit (sextet₁ a) :: digit (sextet₂ a b) :: digit (sextet₃ b c) :: digit (sextet₄ c) ::
          (base64 rest ++ 10 :: stream)) = _
      unfold pollBase64
      rw [requestChars_quad htemp h₁ h₂ h₃.2.1 h₄.2.1]
      dsimp only
      rw [if_neg h₃.1, if_neg h₄.1, if_neg (Nat.not_lt.mpr hcap'), unpack₃_spec hcap',
        Option.bind_some, ih (by omega) rfl (by rw [List.length_append, hthree]; omega)]
      simp only [List.length_append, List.length_cons, List.length_nil, List.append_assoc,
        List.cons_append, List.nil_append]
      congr 3
      omega

theorem djinnPollPacketFromSerialPortBase64_spec (poll : Poll) (hcap : packet.length ≤ poll.capacity)
    (stream : List UInt8) :
    djinnPollPacketFromSerialPortBase64 poll (lined packet ++ stream) =
      if poll.canRead then some ⟨.success, some packet.length, packet, stream⟩
      else some ⟨.nothing, none, [], lined packet ++ stream⟩ := by
  unfold djinnPollPacketFromSerialPortBase64
  have hstream : lined packet ++ stream = base64 packet ++ 10 :: stream := by
    unfold lined
    rw [List.append_assoc]
    rfl
  rw [hstream]
  refine if_congr Iff.rfl ?_ rfl
  have hrounds : packet.length < (base64 packet ++ 10 :: stream).length + 1 := by
    rw [List.length_append, base64_length]
    omega
  have hroom : ([] : List UInt8).length + packet.length ≤ poll.capacity := by
    rw [List.length_nil, Nat.zero_add]
    exact hcap
  have hpoll := pollBase64_spec packet hrounds poll.temp_length hroom stream
  rw [hpoll, List.length_nil, Nat.zero_add, List.nil_append]

/-- The port has something to read only while packets are left, and each poll that reads one has
room for it. -/
def Admits : List Poll → List Packet → Prop
  | [], _ => True
  | poll :: polls, [] => poll.canRead = false ∧ Admits polls []
  | poll :: polls, packet :: packets =>
      if poll.canRead then packet.length ≤ poll.capacity ∧ Admits polls packets
      else Admits polls (packet :: packets)

theorem pollAll_spec {polls : List Poll} {packets : List Packet} (h : Admits polls packets) :
    pollAll polls (packets.flatMap lined) =
      some ((packets.take (polls.countP Poll.canRead)).map fun p => (p.length, p)) := by
  induction polls generalizing packets with
  | nil => rfl
  | cons poll polls ih =>
      cases packets with
      | nil =>
          obtain ⟨hready, hpolls⟩ := h
          have hrest := ih hpolls
          unfold pollAll djinnPollPacketFromSerialPortBase64
          rw [hready, if_neg Bool.false_ne_true]
          refine hrest.trans ?_
          rw [List.take_nil, List.take_nil]
      | cons packet packets =>
          unfold Admits at h
          unfold pollAll
          rw [List.flatMap_cons]
          cases hready : poll.canRead with
          | true =>
              rw [if_pos hready] at h
              obtain ⟨hcap, hpolls⟩ := h
              rw [djinnPollPacketFromSerialPortBase64_spec poll hcap, if_pos hready]
              dsimp only
              rw [ih hpolls, List.countP_cons_of_pos hready]
              rfl
          | false =>
              rw [hready, if_neg Bool.false_ne_true] at h
              unfold djinnPollPacketFromSerialPortBase64
              rw [hready, if_neg Bool.false_ne_true, List.countP_cons_of_neg (by rw [hready]; decide)]
              exact ih h

end Beelzebub.Djinn
