import AiInterceptor.Proxy.Tls

/-!
# The HTTP branch and the handler of the test proxy

`extractHTTPHost` reads until it has seen an empty line, the limit is passed or a
read fails, and looks for a Host field in what it has. `handle` picks the branch
by the first byte, and dials when a host was found; what both branches have read
by then is replayed to the upstream.
-/

namespace AiInterceptor.Proxy

open Lib Go

def httpsPort : GoString := ascii "443"
def httpPort : GoString := ascii "80"

def httpReadBufSize : Nat := 4096
def httpMaxHeaderBuf : Nat := 16384

/-- `"\r\nhost: "`. -/
def needle : List UInt8 := [0x0D, 0x0A] ++ ascii "host: "

/-- `"\r\n\r\n"`. -/
def headEnd : List UInt8 := [0x0D, 0x0A, 0x0D, 0x0A]

section Http

variable (lowerRune : Nat → Nat)

def parseHostHeader (data : List UInt8) : Option GoString :=
  match indexOf (toLower lowerRune data) needle with
  | none => some []
  | some idx =>
      -- `data[start:]`, with an index into the lower-cased copy
      match slice data (idx + needle.length) data.length with
      | none => none
      | some rest =>
          match (indexByte rest 0x0D).or (indexByte rest 0x0A) with
          | none => some (trimSpace rest)
          | some stop => some (trimSpace (rest.take stop))

/-- The read loop of `extractHTTPHost`, with `buf` read so far. -/
def httpLoop (buf : List UInt8) (conn : Conn) : (List UInt8 × Option IoError) × Conn :=
  if buf.length < httpMaxHeaderBuf then
    match _hread : conn.read httpReadBufSize with
    | ((tmp, some e), conn') => ((buf ++ tmp, some e), conn')
    | ((tmp, none), conn') =>
        if contains (buf ++ tmp) headEnd then ((buf ++ tmp, none), conn')
        else httpLoop (buf ++ tmp) conn'
  else ((buf, none), conn)
termination_by conn.weight
decreasing_by
  have hprogress := @Source.read_weight UInt8 httpReadBufSize (by decide) conn (by rw [_hread])
  rw [_hread] at hprogress
  exact hprogress

def extractHTTPHost (conn : Conn) (firstByte : UInt8) : Option Extracted × Conn :=
  match httpLoop [firstByte] conn with
  | ((peeked, err), conn) =>
      ((parseHostHeader lowerRune peeked).map fun host =>
        ⟨host, peeked, if host ≠ [] then none else err⟩, conn)

end Http

/-! ## `handle` up to the dial -/

inductive Handled
  | closed
  | panicked
  | dial (target : GoString) (peeked : List UInt8)
  deriving DecidableEq, Repr

def dialTarget (host upstreamPort : GoString) : GoString :=
  match splitHostPort host with
  | .error _ => joinHostPort host upstreamPort
  | .ok _ => host

/-- What follows the extraction. -/
def finish (upstreamPort : GoString) : Option Extracted × Conn → Handled × Conn
  | (none, conn) => (.panicked, conn)
  | (some x, conn) =>
      if x.err.isSome ∨ x.host = [] then (.closed, conn)
      else (.dial (dialTarget x.host upstreamPort) x.peeked, conn)

def handle (lowerRune : Nat → Nat) (conn : Conn) : Handled × Conn :=
  match conn.readFull 1 [] with
  | ((_, some _), conn) => (.closed, conn)
  | ((first, none), conn) =>
      match index first 0 with
      | none => (.panicked, conn)
      | some b =>
          if b = tlsRecordHandshake then finish httpsPort (extractSNI conn b)
          else finish httpPort (extractHTTPHost lowerRune conn b)

end AiInterceptor.Proxy
