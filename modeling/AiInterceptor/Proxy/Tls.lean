import AiInterceptor.Go.Bytes
import AiInterceptor.Lib.ByteOrder
import AiInterceptor.Lib.Stream

/-!
# The TLS branch of the test proxy (`testing/proxy/main.go`)

`extractSNI` reads one TLS record and looks for a server name in the ClientHello
it holds. Index and slice expressions that are out of range panic: the functions
below return `none` then.
-/

namespace AiInterceptor.Proxy

open Lib Go

/-! ## Constants of `constants.go` -/

def tlsRecordHandshake : UInt8 := 0x16
def tlsHandshakeClientHello : UInt8 := 0x01
def tlsExtSNI : UInt16 := 0x0000

def tlsRecordHdrTail : Nat := 4
def tlsRecordLenOffset : Nat := 2
def tlsHandshakeHdrLen : Nat := 4
def tlsExtHdrLen : Nat := 4

def clientHelloMinLen : Nat := 35
def clientHelloRandOffset : Nat := 34

def sniExtMinLen : Nat := 5
def sniNameLenOffset : Nat := 3
def sniNameOffset : Nat := 5

/-- `binary.BigEndian.Uint16(s[pos : pos+2])`. -/
def uint16At (s : List UInt8) (pos : Nat) : Option UInt16 :=
  (slice s pos (pos + 2)).map ByteOrder.big.get16

/-! ## `parseSNI` -/

/-- The body of the loop for an extension that fits: `some (some name)` is the
`return`, `some none` goes on with the next extension. -/
def serverName (hello : List UInt8) (extType : UInt16) (pos extLen : Nat) :
    Option (Option GoString) :=
  if extType = tlsExtSNI ∧ sniExtMinLen ≤ extLen then do
    let ext ← slice hello pos (pos + extLen)
    let nameLen := (← uint16At ext sniNameLenOffset).toNat
    if sniNameOffset + nameLen ≤ ext.length then
      return some (← slice ext sniNameOffset (sniNameOffset + nameLen))
    else return none
  else some none

/-- The loop over the extensions between `pos` and `stop`. -/
def extensionLoop (hello : List UInt8) (stop pos : Nat) : Option GoString :=
  if _h : pos + tlsExtHdrLen ≤ stop then
    match uint16At hello pos, uint16At hello (pos + 2) with
    | some extType, some extLen =>
        if stop < pos + tlsExtHdrLen + extLen.toNat then some []
        else
          match serverName hello extType (pos + tlsExtHdrLen) extLen.toNat with
          | none => none
          | some (some name) => some name
          | some none => extensionLoop hello stop (pos + tlsExtHdrLen + extLen.toNat)
    | _, _ => none
  else some []
termination_by stop - pos
decreasing_by
  have : tlsExtHdrLen = 4 := rfl
  omega

def parseSNI (hello : List UInt8) : Option GoString :=
  if hello.length < clientHelloMinLen then some []
  else do
    let pos := clientHelloRandOffset
    if hello.length < pos + 1 then return []
    let sessLen := (← index hello pos).toNat
    let pos := pos + (1 + sessLen)
    if hello.length < pos + 2 then return []
    let cipherLen := (← uint16At hello pos).toNat
    let pos := pos + (2 + cipherLen)
    if hello.length < pos + 1 then return []
    let compLen := (← index hello pos).toNat
    let pos := pos + (1 + compLen)
    if hello.length < pos + 2 then return []
    let extTotal := (← uint16At hello pos).toNat
    let pos := pos + 2
    extensionLoop hello (min (pos + extTotal) hello.length) pos

/-! ## `extractSNI` -/

abbrev Conn := Source UInt8

/-- The named results of the two extraction functions. -/
structure Extracted where
  host : GoString
  peeked : List UInt8
  err : Option IoError
  deriving DecidableEq, Repr

/-- The end of `extractSNI`: the host in the data of one record. -/
def recordHost (recData : List UInt8) : Option GoString :=
  if recData.length < tlsHandshakeHdrLen then some []
  else do
    if (← index recData 0) ≠ tlsHandshakeClientHello then return []
    let hsLen := (← index recData 1).toNat <<< 16 ||| (← index recData 2).toNat <<< 8 |||
      (← index recData 3).toNat
    if recData.length < tlsHandshakeHdrLen + hsLen then return []
    parseSNI (← slice recData tlsHandshakeHdrLen (tlsHandshakeHdrLen + hsLen))

def extractSNI (conn : Conn) (firstByte : UInt8) : Option Extracted × Conn :=
  match conn.readFull tlsRecordHdrTail [] with
  | ((_, some e), conn) => (some ⟨[], [], some e⟩, conn)
  | ((hdr, none), conn) =>
      match uint16At hdr tlsRecordLenOffset with
      | none => (none, conn)
      | some recLen =>
          match conn.readFull recLen.toNat [] with
          | ((_, some e), conn) => (some ⟨[], [], some e⟩, conn)
          | ((recData, none), conn) =>
              ((recordHost recData).map fun host => ⟨host, [firstByte] ++ hdr ++ recData, none⟩,
                conn)

end AiInterceptor.Proxy
