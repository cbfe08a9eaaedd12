import Mathlib.Data.List.Infix
import McpeLauncher.Lib.Codec

/-!
# The Discord IPC socket

The frames of `DiscordIpc`: the opcode and the length of the payload, both as little-endian words,
and then the payload. What `poll`, `recv` and `send` do is a schedule, so that each way to split the
bytes is one; the texts that `consumeFrame` takes from a payload are left out.
-/

namespace McpeLauncher.Discord
open Codec

/-- The source has an enumeration over all 32-bit words, of which five have a name. -/
structure Opcode where
  code : UInt32
  deriving DecidableEq

namespace Opcode

def handshake : Opcode := ⟨0⟩
def frame : Opcode := ⟨1⟩
def close : Opcode := ⟨2⟩
def ping : Opcode := ⟨3⟩
def pong : Opcode := ⟨4⟩

end Opcode

structure Frame where
  opcode : Opcode
  payload : List UInt8
  deriving DecidableEq

def kFrameHeaderSize : Nat := 8

def maxPayload : Nat := kFrameHeaderSize * 1024

namespace Frame

/-- The two words of the header that `sendFrame` writes; the length loses its upper bits. -/
def header (f : Frame) : List UInt8 :=
  leBytes 4 f.opcode.code.toNat ++ leBytes 4 (UInt32.ofNat f.payload.length).toNat

def encode (f : Frame) : List UInt8 := f.header ++ f.payload

/-- The words of a header of `kFrameHeaderSize` bytes. -/
def parseHeader (header : List UInt8) : Opcode × UInt32 :=
  (⟨UInt32.ofNat (leNat (header.take 4))⟩, UInt32.ofNat (leNat (header.drop 4)))

/-- The wire format: the first frame of some bytes and what follows it. -/
def decode (bytes : List UInt8) : Option (Frame × List UInt8) :=
  let (opcode, len) := parseHeader (bytes.take kFrameHeaderSize)
  let rest := bytes.drop kFrameHeaderSize
  if kFrameHeaderSize ≤ bytes.length ∧ len.toNat ≤ rest.length then
    some (⟨opcode, rest.take len.toNat⟩, rest.drop len.toNat)
  else none

end Frame

/-- One `poll` and the `recv` after it. If the socket is ready, `recv` gives up to `n` of the bytes,
and none means that the peer has closed its end. -/
inductive Poll
  | interrupted
  | failed
  | timeout
  | ready (n : Nat)
  | recvFailed
  deriving DecidableEq

/-- One `send`, which takes up to `n` bytes. -/
inductive Send
  | short (n : Nat)
  | interrupted
  | failed
  deriving DecidableEq

/-- `readFrame` fills its parameters `op` and `payload`; its callers use them only after `Got`. -/
inductive ReadResult (α : Type)
  | Got (a : α)
  | Timeout
  | Error
  deriving DecidableEq

/-- The socket is open if `fd_` is not negative. `incoming` is what the peer sends and has not been
received yet, and `written` all that was sent. A schedule that is over stands for time-outs and for
sends that take all. -/
structure DiscordIpc where
  connected : Bool
  incoming : List UInt8
  polls : List Poll
  sends : List Send
  written : List UInt8

namespace DiscordIpc

def disconnect (s : DiscordIpc) : DiscordIpc := { s with connected := false }

/-- The loop of `sendFrame` over the bytes that are left of a buffer. -/
def sendAll (s : DiscordIpc) (left : List UInt8) : List Send → Bool × DiscordIpc
  | [] => (true, { s with sends := [], written := s.written ++ left })
  | send :: sends =>
    if left = [] then (true, { s with sends := send :: sends })
    else match send with
      | .short n => sendAll { s with written := s.written ++ left.take n } (left.drop n) sends
      | .interrupted => sendAll s left sends
      | .failed => (false, disconnect { s with sends := sends })

def sendFrame (s : DiscordIpc) (f : Frame) : Bool × DiscordIpc :=
  if s.connected then
    match sendAll s f.header s.sends with
    | (true, t) => sendAll t f.payload t.sends
    | (false, t) => (false, t)
  else (false, s)

/-- The loop of `readFrame` for the header, where a time-out is fine as long as nothing is read. -/
def readHeader (s : DiscordIpc) (got : List UInt8) :
    List Poll → ReadResult (List UInt8) × DiscordIpc
  | [] =>
    if kFrameHeaderSize ≤ got.length then (.Got got, { s with polls := [] })
    else if got = [] then (.Timeout, { s with polls := [] })
    else (.Error, disconnect { s with polls := [] })
  | poll :: polls =>
    if kFrameHeaderSize ≤ got.length then (.Got got, { s with polls := poll :: polls })
    else match poll with
      | .interrupted => readHeader s got polls
      | .failed => (.Error, disconnect { s with polls := polls })
      | .timeout =>
        if got = [] then (.Timeout, { s with polls := polls })
        else (.Error, disconnect { s with polls := polls })
      | .ready n =>
        let bytes := s.incoming.take (min n (kFrameHeaderSize - got.length))
        if bytes = [] then (.Error, disconnect { s with polls := polls })
        else readHeader { s with incoming := s.incoming.drop bytes.length } (got ++ bytes) polls
      | .recvFailed => (.Error, disconnect { s with polls := polls })

/-- The loop of `readFrame` for the payload, where everything but bytes is an error. -/
def readPayload (s : DiscordIpc) (len : Nat) (got : List UInt8) :
    List Poll → ReadResult (List UInt8) × DiscordIpc
  | [] =>
    if len ≤ got.length then (.Got got, { s with polls := [] })
    else (.Error, disconnect { s with polls := [] })
  | poll :: polls =>
    if len ≤ got.length then (.Got got, { s with polls := poll :: polls })
    else match poll with
      | .ready n =>
        let bytes := s.incoming.take (min n (len - got.length))
        if bytes = [] then (.Error, disconnect { s with polls := polls })
        else readPayload { s with incoming := s.incoming.drop bytes.length } len (got ++ bytes) polls
      | .interrupted | .failed | .timeout | .recvFailed =>
        (.Error, disconnect { s with polls := polls })

def readFrame (s : DiscordIpc) : ReadResult Frame × DiscordIpc :=
  if s.connected then
    match readHeader s [] s.polls with
    | (.Got header, t) =>
      let (opcode, len) := Frame.parseHeader header
      if maxPayload < len.toNat then (.Error, disconnect t)
      else match readPayload t len.toNat [] t.polls with
        | (.Got payload, u) => (.Got ⟨opcode, payload⟩, u)
        | (.Timeout, u) => (.Timeout, u)
        | (.Error, u) => (.Error, u)
    | (.Timeout, t) => (.Timeout, t)
    | (.Error, t) => (.Error, t)
  else (.Error, s)

/-- What `consumeFrame` does with the socket. -/
def consumeFrame (s : DiscordIpc) (f : Frame) : DiscordIpc :=
  if f.opcode = .ping then (sendFrame s ⟨.pong, f.payload⟩).2
  else if f.opcode = .close then disconnect s
  else s

/-- The loop of `pump`, together with the frames that it took. -/
def pumpLoop : Nat → DiscordIpc → Bool × List Frame × DiscordIpc
  | 0, s => (false, [], s)
  | fuel + 1, s =>
    if s.connected then
      match readFrame s with
      | (.Timeout, t) => (true, [], t)
      | (.Error, t) => (false, [], t)
      | (.Got f, t) =>
        let (live, frames, u) := pumpLoop fuel (consumeFrame t f)
        (live, f :: frames, u)
    else (false, [], s)

/-- Each frame needs a poll, so that the loop ends before the fuel does (`pump_eq`). -/
def pump (s : DiscordIpc) : Bool × List Frame × DiscordIpc := pumpLoop (s.polls.length + 1) s

end DiscordIpc

end McpeLauncher.Discord
