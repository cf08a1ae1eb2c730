import AiInterceptor.Proxy.Handle
import AiInterceptor.Proxy.Relay
import AiInterceptor.Lib.Parallel

/-!
# The test proxy as a whole (`main` and `handle`)

`main` accepts connections and starts one `handle` for each. A session is one
`handle` with its two connections: it reads the first byte and then a TLS record or
a request head, read by read, dials, forwards what it has peeked, and relays. Its
peers, its reads, the dial and the copiers take their steps in any order with those of
all other sessions. An accept that fails is logged and tried again. A panic in one
session ends the process, and with it every session.
-/

namespace AiInterceptor.Proxy

open Lib Go

/-- A dial: its target, and what is forwarded first. -/
structure Dialled where
  target : GoString
  peeked : List UInt8
  deriving DecidableEq, Repr

/-- The returns of `handle`, by what it logs. -/
inductive Closing
  | firstRead (e : IoError)               -- silent
  | noHost (err : Option IoError)         -- "[proxy] cannot determine target host from ..."
  | dial (d : Dialled)                    -- "[proxy] dial ...: ..."
  | forward (d : Dialled)                 -- "[proxy] forward peeked bytes to ...: ..."
  | relayed (d : Dialled)                 -- silent
  deriving DecidableEq, Repr

/-- Where `handle` stands. The first four wait for a read. -/
inductive Phase
  | first
  | header (b : UInt8) (got : List UInt8)
  | record (b : UInt8) (hdr : List UInt8) (recLen : Nat) (got : List UInt8)
  | head (buf : List UInt8)
  | dialing (d : Dialled)
  | forwarding (d : Dialled)
  | relaying (d : Dialled)
  | closed (why : Closing)
  | panicked
  deriving DecidableEq, Repr

/-! ## The reads -/

/-- What one read does to an `io.ReadFull`. -/
inductive Filled
  | more (got : List UInt8)
  | full (buf : List UInt8)
  | failed (e : IoError)
  deriving DecidableEq, Repr

def fill (need : Nat) (got data : List UInt8) (err : Option IoError) : Filled :=
  if data.length = need - got.length then .full (got ++ data)
  else match err with
    | none => .more (got ++ data)
    | some e => .failed (if e = .eof ∧ got ++ data ≠ [] then .unexpectedEOF else e)

namespace Phase

/-- The end of the extraction. -/
def settle (upstreamPort : GoString) : Option Extracted → Phase
  | none => .panicked
  | some x =>
      if x.err.isSome ∨ x.host = [] then .closed (.noHost x.err)
      else .dialing ⟨dialTarget x.host upstreamPort, x.peeked⟩

/-- With the whole record read. -/
def endRecord (b : UInt8) (hdr recData : List UInt8) : Phase :=
  settle httpsPort ((recordHost recData).map fun host => ⟨host, [b] ++ hdr ++ recData, none⟩)

/-- With the record header read; an empty record needs no read. -/
def enterRecord (b : UInt8) (hdr : List UInt8) : Phase :=
  match uint16At hdr tlsRecordLenOffset with
  | none => .panicked
  | some recLen =>
      if recLen.toNat = 0 then endRecord b hdr [] else .record b hdr recLen.toNat []

section Http

variable (lowerRune : Nat → Nat)

/-- After the loop over the request head. -/
def endHead (buf : List UInt8) (err : Option IoError) : Phase :=
  settle httpPort ((parseHostHeader lowerRune buf).map fun host =>
    ⟨host, buf, if host ≠ [] then none else err⟩)

/-- The loop condition. -/
def enterHead (buf : List UInt8) : Phase :=
  if buf.length < httpMaxHeaderBuf then .head buf else endHead lowerRune buf none

/-- The room of the buffer that is read into; at its limit a head is not read on. -/
def room : Phase → Nat
  | .first => 1
  | .header _ got => tlsRecordHdrTail - got.length
  | .record _ _ recLen got => recLen - got.length
  | .head buf => if buf.length < httpMaxHeaderBuf then httpReadBufSize else 0
  | _ => 0

/-- One read has returned. -/
def read (data : List UInt8) (err : Option IoError) : Phase → Phase
  | .first =>
      match fill 1 [] data err with
      | .more _ => .first
      | .failed e => .closed (.firstRead e)
      | .full buf =>
          match index buf 0 with
          | none => .panicked
          | some b => if b = tlsRecordHandshake then .header b [] else enterHead lowerRune [b]
  | .header b got =>
      match fill tlsRecordHdrTail got data err with
      | .more got => .header b got
      | .failed e => settle httpsPort (some ⟨[], [], some e⟩)
      | .full hdr => enterRecord b hdr
  | .record b hdr recLen got =>
      match fill recLen got data err with
      | .more got => .record b hdr recLen got
      | .failed e => settle httpsPort (some ⟨[], [], some e⟩)
      | .full recData => endRecord b hdr recData
  | .head buf =>
      match err with
      | some e => endHead lowerRune (buf ++ data) (some e)
      | none =>
          if contains (buf ++ data) headEnd then endHead lowerRune (buf ++ data) none
          else enterHead lowerRune (buf ++ data)
  | phase => phase

end Http

/-- `handle` has returned, or will not any more. -/
def hasEnded : Phase → Bool
  | .closed _ | .panicked => true
  | _ => false

/-- The upstream connection has been made. -/
def connected : Phase → Bool
  | .forwarding _ | .relaying _ | .closed (.forward _) | .closed (.relayed _) => true
  | _ => false

def isRelaying : Phase → Bool
  | .relaying _ => true
  | _ => false

end Phase

/-! ## A session -/

/-- `relay` holds the two connections; its copiers run in the phase `relaying`. -/
structure Session where
  phase : Phase
  relay : Relay
  deriving DecidableEq, Repr

namespace Session

inductive Event
  | wire (e : Relay.Event)
  | read (n : Nat) (err : Option IoError)
  | dial (ok : Bool)
  /-- `upstream.Write(peeked)`; `some n` is a failure after `n` bytes. -/
  | forward (failed : Option Nat)
  deriving DecidableEq, Repr

/-- An accepted connection. -/
def start : Session := ⟨.first, Relay.start []⟩

/-- The client can send at any time, the upstream once it is there; the copiers and
the final receive belong to the relay. -/
def admits (phase : Phase) : Relay.Event → Bool
  | .on .up (.send _) | .on .up .halfClose => true
  | .on .down (.send _) | .on .down .halfClose => phase.connected
  | _ => phase.isRelaying

/-- The phase after a step of the relay: the teardown is the return of `handle`. -/
def afterWire (phase : Phase) : Relay.Event → Phase
  | .teardown =>
      match phase with
      | .relaying d => .closed (.relayed d)
      | phase => phase
  | _ => phase

/-- The client's bytes that a read takes. -/
def taken (s : Session) (n : Nat) : List UInt8 := s.relay.up.inbound.take n

/-- A read returns at most what the buffer has room for and what has arrived, and
end of file only behind the last byte of a client that has closed. -/
def canRead (s : Session) (n : Nat) (err : Option IoError) : Bool :=
  0 < s.phase.room ∧ n ≤ s.phase.room ∧ n ≤ s.relay.up.inbound.length ∧
    (err = some .eof → s.relay.up.closed ∧ n = s.relay.up.inbound.length)

/-- In a new phase; a return closes the connections. -/
def goto (relay : Relay) (phase : Phase) : Session :=
  ⟨phase, { relay with torn := relay.torn || phase.hasEnded }⟩

def step (lowerRune : Nat → Nat) (s : Session) : Event → Option Session
  | .wire e =>
      if admits s.phase e then (s.relay.step e).map fun relay => ⟨afterWire s.phase e, relay⟩
      else none
  | .read n err =>
      if s.canRead n err then
        let up := { s.relay.up with inbound := s.relay.up.inbound.drop n }
        some (goto { s.relay with up := up } (s.phase.read lowerRune (s.taken n) err))
      else none
  | .dial ok =>
      match s.phase with
      | .dialing d => some (goto s.relay (if ok then .forwarding d else .closed (.dial d)))
      | _ => none
  | .forward failed =>
      match s.phase with
      | .forwarding d =>
          match failed with
          | none =>
              -- without peeked bytes there is no write
              let up := { s.relay.up with delivered := s.relay.up.delivered ++ d.peeked }
              some (goto { s.relay with up := up } (.relaying d))
          | some n =>
              if d.peeked ≠ [] ∧ n ≤ d.peeked.length then
                let up := { s.relay.up with delivered := s.relay.up.delivered ++ d.peeked.take n }
                some (goto { s.relay with up := up } (.closed (.forward d)))
              else none
      | _ => none

/-- The read an event makes, as a chunk of the connection's script. -/
def reads (s : Session) : Event → List (Chunk UInt8)
  | .read n err => [⟨s.taken n, err⟩]
  | _ => []

end Session

/-! ## The process -/

/-- A panic that nobody recovers. -/
def Session.fatal (s : Session) : Bool := s.phase = .panicked

/-- `main`: every accept starts a session. -/
def serverStep (lowerRune : Nat → Nat) : List Session → PoolEvent Session.Event →
    Option (List Session) :=
  poolStep Session.fatal Session.start (Session.step lowerRune)

end AiInterceptor.Proxy
