import AiInterceptor.Bpf.Defs

/-!
# The TC hook (`tc_dns_observer`)

The hook walks the headers of a frame by loading single fields at computed
offsets, then copies what follows the transport header into a reserved
ring-buffer slot. Offsets are `__u16`, lengths `__u32`, as declared; every load
goes through `bpf_skb_load_bytes`, which fails exactly past the end of the
frame.
-/

namespace AiInterceptor.Bpf

open Lib

/-- A frame; `skb->len` is a `__u32`. -/
structure Skb where
  bytes : List UInt8
  len_lt : bytes.length < 2 ^ 32

def Skb.len (skb : Skb) : UInt32 := UInt32.ofNat skb.bytes.length

/-- `bpf_skb_load_bytes`: the bytes, or a negative return. -/
def bpfSkbLoadBytes (skb : Skb) (off len : Nat) : Option (List UInt8) :=
  if off + len ≤ skb.bytes.length then some (readAt skb.bytes off len) else none

/-- Load of a `__u8`. -/
def loadU8 (skb : Skb) (off : Nat) : Option UInt8 :=
  (bpfSkbLoadBytes skb off 1).bind fun bytes => bytes[0]?

def bswap16 (x : UInt16) : UInt16 := (x <<< 8) ||| (x >>> 8)

/-- `bpf_ntohs` of `bpf_endian.h`. -/
def bpfNtohs : ByteOrder → UInt16 → UInt16
  | .little, x => bswap16 x
  | .big, x => x

/-- What the hook did to the `dns_events` ring. -/
inductive RingOp
  | reserve (ok : Bool)
  | submit (record : List UInt8)
  | discard
  deriving DecidableEq, Repr

structure TcResult where
  ret : Nat
  ring : List RingOp
  deriving DecidableEq, Repr

/-- `is_valid_dns_response` of `dns/helpers.h`. -/
def isValidDnsResponse (buf : List UInt8) (len : UInt32) : Bool :=
  if len < UInt32.ofNat dnsHdrMinLen then false
  else if buf.getD 2 0 &&& 0x80 = 0 then false
  else if ((buf.getD 6 0).toUInt16 <<< 8) ||| (buf.getD 7 0).toUInt16 = 0 then false
  else true

/-- Length of the transport header: fixed for UDP, the data-offset nibble for
TCP. -/
def transportHdrLen (skb : Skb) (ipProto : UInt8) (transportOffset : UInt16) : Option UInt16 :=
  if ipProto = 17 then some (UInt16.ofNat udpHdrLen)
  else do
    let doff ← loadU8 skb (transportOffset.toNat + 12)
    let len : UInt16 := (doff >>> 4).toUInt16 * 4
    if len < UInt16.ofNat tcpHdrMinlen then none else some len

/-- The header checks, up to `payload_offset`; `none` is an early return. -/
def payloadOffset (o : ByteOrder) (skb : Skb) : Option UInt16 := do
  let ipHdrByte ← loadU8 skb ethHdrLen
  let ipHdrLen : UInt16 := (ipHdrByte &&& 0x0f).toUInt16 * 4
  if ipHdrLen < UInt16.ofNat ipHdrMinlen then none
  let ipProto ← loadU8 skb (ethHdrLen + 9)
  if ipProto ≠ 17 ∧ ipProto ≠ 6 then none
  let transportOffset : UInt16 := UInt16.ofNat ethHdrLen + ipHdrLen
  let srcPort ← bpfSkbLoadBytes skb transportOffset.toNat 2
  if bpfNtohs o (o.get16 srcPort) ≠ 53 then none
  let hdrLen ← transportHdrLen skb ipProto transportOffset
  let dnsPrefix : UInt16 := if ipProto = 6 then UInt16.ofNat dnsTcpLenPrefix else 0
  return transportOffset + hdrLen + dnsPrefix

/-- The masked payload length with its bounds; `none` is an early return. -/
def payloadLen (skb : Skb) (payloadOffset : UInt16) : Option UInt32 :=
  if payloadOffset.toUInt32 ≥ skb.len then none
  else
    -- the mask only gives the verifier a bound of 2 * MAX_DNS_MSG_SIZE - 1
    let len := (skb.len - payloadOffset.toUInt32) &&& UInt32.ofNat (2 * maxDnsMsgSize - 1)
    if len < UInt32.ofNat dnsHdrMinLen ∨ len > UInt32.ofNat maxDnsMsgSize then none else some len

/-- Fill a reserved slot and resolve it. -/
def capture (o : ByteOrder) (skb : Skb) (off : UInt16) (len : UInt32)
    (slot : Record dnsEventT) : RingOp :=
  let ev := dnsEventT.store slot.bytes .msgSize (o.put64 len.toUInt64)
  match bpfSkbLoadBytes skb off.toNat len.toNat with
  | none => .discard
  | some bytes =>
      let ev := dnsEventT.store ev .msg bytes
      if isValidDnsResponse (dnsEventT.load ev .msg) len then .submit ev else .discard

/-- The TC hook. `slot` is what `bpf_ringbuf_reserve` returns: `none` when the
ring is full, otherwise a slot with whatever an earlier record left in it. -/
def tcDnsObserver (o : ByteOrder) (skb : Skb) (slot : Option (Record dnsEventT)) : TcResult :=
  match payloadOffset o skb with
  | none => ⟨tcActOk, []⟩
  | some off =>
      match payloadLen skb off with
      | none => ⟨tcActOk, []⟩
      | some len =>
          match slot with
          | none => ⟨tcActOk, [.reserve false]⟩
          | some slot => ⟨tcActOk, [.reserve true, capture o skb off len slot]⟩

/-! ## Field loads -/

theorem bpfSkbLoadBytes_eq_some {skb : Skb} {off len : Nat}
    (h : off + len ≤ skb.bytes.length) :
    bpfSkbLoadBytes skb off len = some (readAt skb.bytes off len) := if_pos h

theorem loadU8_eq (skb : Skb) (off : Nat) : loadU8 skb off = skb.bytes[off]? := by
  unfold loadU8 bpfSkbLoadBytes
  by_cases h : off + 1 ≤ skb.bytes.length
  · rw [if_pos h]
    show (readAt skb.bytes off 1)[0]? = _
    rw [readAt_getElem?, if_pos Nat.one_pos, Nat.add_zero]
  · rw [if_neg h, List.getElem?_eq_none (by omega)]
    rfl

/-- The swap of a little-endian load is the big-endian value. -/
theorem bpfNtohs_get16 (o : ByteOrder) (a b : UInt8) :
    bpfNtohs o (o.get16 [a, b]) = ByteOrder.big.get16 [a, b] := by
  cases o with
  | big => rfl
  | little =>
      have ha : a.toNat < 256 := a.toNat_lt
      have hb : b.toNat < 256 := b.toNat_lt
      apply UInt16.toNat_inj.mp
      have hv : (ByteOrder.little.get16 [a, b]).toNat = a.toNat + 256 * b.toNat :=
        ByteOrder.get16_toNat .little a b
      have hbig : (ByteOrder.big.get16 [a, b]).toNat = b.toNat + 256 * a.toNat :=
        ByteOrder.get16_toNat .big a b
      have hlow : (ByteOrder.little.get16 [a, b]).toNat <<< 8 % 2 ^ 16 = a.toNat <<< 8 := by
        rw [hv, Nat.shiftLeft_eq, Nat.shiftLeft_eq]
        omega
      have hhigh : (ByteOrder.little.get16 [a, b]).toNat >>> 8 = b.toNat := by
        rw [hv, Nat.shiftRight_eq_div_pow]
        omega
      rw [hbig]
      show (bswap16 (ByteOrder.little.get16 [a, b])).toNat = _
      rw [bswap16, UInt16.toNat_or, UInt16.toNat_shiftLeft, UInt16.toNat_shiftRight]
      show (ByteOrder.little.get16 [a, b]).toNat <<< 8 % 2 ^ 16 |||
        (ByteOrder.little.get16 [a, b]).toNat >>> 8 = _
      rw [hlow, hhigh, ← Nat.shiftLeft_add_eq_or_of_lt (by omega), Nat.shiftLeft_eq]
      omega

end AiInterceptor.Bpf
