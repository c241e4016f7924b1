import Beelzebub.Djinn.SerialPort
import Beelzebub.Lib.Framing
import Mathlib.Data.Int.Notation

/-!
# The debugger's side of the link

The debugger reads packets off a socket into static buffers, where it keeps what came behind the
packet that it returns.  A connection delivers its bytes in chunks.
-/

namespace Beelzebub.Djinn

open Framing

/-! ## The code -/

/-- `sizeof(BuffIn)`. -/
def buffSize : ℕ := 4096

/-- `recv`, and what the readers make of it where nothing comes any more. -/
def recv (broken : Bool) (size : ℕ) (chunks : List (List UInt8)) :
    Except ℤ (List UInt8 × List (List UInt8)) :=
  if (receive size chunks).1 = [] then .error (if broken then -1 else -2)
  else .ok (receive size chunks)

/-! `ReadPacketSock`. -/

structure SockStatics where
  buffIn : List UInt8
  buffLen : ℤ

/-- `BuffIn[0]`, which is a `char`. -/
def packSize (buff : List UInt8) : Option ℤ := buff[0]?.map fun c => c.toInt8.toInt

/-- The loop that receives up to the end of a packet, for so many rounds at most: the cursor and the
length at its end, the buffer, and the rest of the chunks. -/
def fill (broken : Bool) : ℕ → List UInt8 → ℤ → ℤ → List (List UInt8) →
    Option (Except ℤ (ℤ × ℤ) × List UInt8 × List (List UInt8))
  | rounds, buff, cursor, packLen, chunks =>
      if cursor < packLen then
        if cursor < 0 then none
        else
          match rounds, recv broken (buffSize - cursor.toNat) chunks with
          | _, .error e => some (.error e, buff, chunks)
          | 0, .ok _ => none
          | rounds + 1, .ok (bytes, chunks) => do
              let buff ← overwrite buff cursor.toNat bytes
              let size ← packSize buff
              let packLen := if cursor = 0 then size + 1 else packLen
              fill broken rounds buff (cursor + bytes.length) packLen chunks
      else some (.ok (cursor, packLen), buff, chunks)

/-- The buffer and the cursor once the packet that was returned before is removed. -/
def shift (s : SockStatics) : Option (List UInt8 × ℤ) :=
  if s.buffLen > 0 then do
    let size ← packSize s.buffIn
    let cursor := s.buffLen - size - 1
    if cursor > 0 then
      if size + 1 < 0 then none
      else (move s.buffIn 0 (size + 1).toNat cursor.toNat).map fun buff => (buff, cursor)
    else some (s.buffIn, cursor)
  else some (s.buffIn, 0)

def readPacketSock (broken : Bool) : Read Packet UInt8 SockStatics ℤ := fun s chunks => do
  let (buff, cursor) ← shift s
  let size ← packSize buff
  let packLen : ℤ := if cursor = 0 then (buffSize : ℤ) else size + 1
  match ← fill broken (chunks.flatten.length + 1) buff cursor packLen chunks with
  | (.error e, buff, chunks) => some (.error e, { s with buffIn := buff }, chunks)
  | (.ok (cursor, packLen), buff, chunks) =>
      if packLen - 1 < 0 then some (.error (packLen - 1), ⟨buff, cursor⟩, chunks)
      else some (.ok ((buff.drop 1).take (packLen - 1).toNat), ⟨buff, cursor⟩, chunks)

/-! `ReadPacketSockBase64`. -/

structure Base64Statics where
  buffIn : List UInt8
  buffLen : ℕ
  lastPackEnd : ℕ

/-- How the loop over what is in the buffer ends. -/
inductive Scanned where
  | found (buff : List UInt8) (cursor lastPackEnd : ℕ)
  | more (buff : List UInt8) (cursor : ℕ)

/-- The loop from `i` on, where so many bytes are left up to the cursor.  Carriage returns are taken
out. -/
def scan : ℕ → List UInt8 → ℕ → Option Scanned
  | 0, buff, i => some (.more buff i)
  | n + 1, buff, i =>
      match buff[i]? with
      | none => none
      | some c =>
          if c = 10 then some (.found buff (i + (n + 1)) (i + 1))
          else if c = 13 then
            (if n > 0 then move buff i (i + 1) n else some buff).bind fun buff => scan n buff i
          else scan n buff (i + 1)

/-- The loop that receives up to the end of a packet, for so many rounds at most: the cursor and the
end at its end, the buffer, and the rest of the chunks. -/
def scanAndReceive (broken : Bool) : ℕ → List UInt8 → ℕ → ℕ → List (List UInt8) →
    Option (Except ℤ (ℕ × ℕ) × List UInt8 × List (List UInt8))
  | rounds, buff, i, n, chunks =>
      match scan n buff i with
      | none => none
      | some (.found buff cursor lastPackEnd) => some (.ok (cursor, lastPackEnd), buff, chunks)
      | some (.more buff cursor) =>
          if cursor ≥ buffSize then some (.error (-2), buff, chunks)
          else
            match rounds, recv broken (buffSize - cursor) chunks with
            | _, .error e => some (.error e, buff, chunks)
            | 0, .ok _ => none
            | rounds + 1, .ok (bytes, chunks) =>
                (overwrite buff cursor bytes).bind fun buff =>
                  scanAndReceive broken rounds buff cursor bytes.length chunks

/-- `LastPackEnd - 5` as the `size_t` that it is compared as. -/
def lastQuad (lastPackEnd : ℕ) : ℕ :=
  if 5 ≤ lastPackEnd then lastPackEnd - 5 else 2 ^ 64 - (5 - lastPackEnd)

/-- The characters behind the last full four. -/
def decodeLast (buff : List UInt8) (i : ℕ) (pack : List UInt8) : Option (List UInt8) := do
  let c₁ ← buff[i]?
  let c₂ ← buff[i + 1]?
  let c₃ ← buff[i + 2]?
  if c₃ = 61 then unpack₁ 3072 pack c₁ c₂
  else
    let c₄ ← buff[i + 3]?
    if c₄ = 61 then unpack₂ 3072 pack c₁ c₂ c₃ else unpack₃ 3072 pack c₁ c₂ c₃ c₄

/-- The decoding from `i` on, for so many rounds at most.  `BuffPack` has `3072` bytes. -/
def decode (buff : List UInt8) (lastPackEnd : ℕ) : ℕ → ℕ → List UInt8 → Option (List UInt8)
  | rounds, i, pack =>
      if i < lastQuad lastPackEnd then
        match rounds with
        | 0 => none
        | rounds + 1 => do
            let c₁ ← buff[i]?
            let c₂ ← buff[i + 1]?
            let c₃ ← buff[i + 2]?
            let c₄ ← buff[i + 3]?
            let pack ← unpack₃ 3072 pack c₁ c₂ c₃ c₄
            decode buff lastPackEnd rounds (i + 4) pack
      else decodeLast buff i pack

/-- The buffer and the cursor once the packet that was returned before is removed. -/
def shiftBase64 (s : Base64Statics) : Option (List UInt8 × ℕ) :=
  if s.buffLen > s.lastPackEnd then
    (move s.buffIn 0 s.lastPackEnd (s.buffLen - s.lastPackEnd)).map fun buff =>
      (buff, s.buffLen - s.lastPackEnd)
  else some (s.buffIn, 0)

def readPacketSockBase64 (broken : Bool) : Read Packet UInt8 Base64Statics ℤ := fun s chunks => do
  let (buff, cursor) ← shiftBase64 s
  match ← scanAndReceive broken (chunks.flatten.length + 1) buff 0 cursor chunks with
  | (.error e, buff, chunks) =>
      some (.error e, { s with buffIn := buff, lastPackEnd := 0 }, chunks)
  | (.ok (cursor, lastPackEnd), buff, chunks) => do
      let pack ← decode buff lastPackEnd buffSize 0 []
      some (.ok pack, ⟨buff, cursor, lastPackEnd⟩, chunks)

/-! `SendPacketGSockBase64`. -/

/-- What is written to `BuffOut`, which has `1536` bytes. -/
def storeBase64 (out : List UInt8) : Packet → Option (List UInt8)
  | a :: b :: c :: rest => do
      let out ← (base64Char (a >>> 2)).bind (push 1536 out)
      let out ← (base64Char ((a &&& 0x03) <<< 4 ||| b >>> 4)).bind (push 1536 out)
      let out ← (base64Char ((b &&& 0x0f) <<< 2 ||| c >>> 6)).bind (push 1536 out)
      let out ← (base64Char (c &&& 0x3f)).bind (push 1536 out)
      storeBase64 out rest
  | [a, b] => do
      let out ← (base64Char (a >>> 2)).bind (push 1536 out)
      let out ← (base64Char ((a &&& 0x03) <<< 4 ||| b >>> 4)).bind (push 1536 out)
      let out ← (base64Char ((b &&& 0x0f) <<< 2)).bind (push 1536 out)
      push 1536 out 61
  | [a] => do
      let out ← (base64Char (a >>> 2)).bind (push 1536 out)
      let out ← (base64Char ((a &&& 0x03) <<< 4)).bind (push 1536 out)
      let out ← push 1536 out 61
      push 1536 out 61
  | [] => some out

/-- The loop around `send`, which takes as much as it pleases, but something: the cursor at its end,
and what went out. -/
def sendLoop (takes : ℕ → ℕ) : ℕ → List UInt8 → ℕ → Option (ℤ × List UInt8)
  | rounds, left, cursor =>
      if left = [] then some (cursor, [])
      else
        match rounds with
        | 0 => none
        | rounds + 1 =>
            let ret := min (takes cursor + 1) left.length
            (sendLoop takes rounds (left.drop ret) (cursor + ret)).map fun r =>
              (r.1, left.take ret ++ r.2)

def sendPacketGSockBase64 (takes : ℕ → ℕ) (packet : Packet) : Option (ℤ × List UInt8) :=
  if 4 * ((packet.length + 2) / 3) ≥ 1536 then some (-10, [])
  else do
    let out ← storeBase64 [] packet
    let out ← push 1536 out 10
    let _ ← push 1536 out 0
    sendLoop takes out.length out 0

/-- What goes out for several packets. -/
def sendAllBase64 : List ((ℕ → ℕ) × Packet) → Option (List UInt8)
  | [] => some []
  | (takes, packet) :: calls => do
      let (_, bytes) ← sendPacketGSockBase64 takes packet
      let rest ← sendAllBase64 calls
      some (bytes ++ rest)

end Beelzebub.Djinn
