import AiInterceptor.Bpf.Defs
import AiInterceptor.Go.Net

/-!
# Ring-buffer readers (`internal/bpf/reader.go`, `internal/bpf/utils.go`)

Each reader is a loop whose body handles one raw sample. `readDnsEvent` checks
the size field against the sample and slices the message out; the arithmetic is
that of Go's 64-bit `int`, so the bound may wrap and the slice expression may
panic. `readRedirectEvent` casts the sample to the generated struct and logs it.
Log lines are the entries handed to the logger; the sink's level filter and
sampling are not part of the reader.
-/

namespace AiInterceptor.Agent

open Lib Bpf Go

/-! ## `utils.go` -/

def nullTermString (b : List UInt8) : GoString := b.takeWhile (· ≠ 0)

/-- The `[]int8` is reinterpreted as bytes, so it is a byte list here. -/
def int8SliceToString (s : List UInt8) : GoString := nullTermString s

def uint32ToIP (o : ByteOrder) (n : UInt32) : GoString := ipString (Ip4.ofBytes (o.put32 n))

def ntohs (o : ByteOrder) (n : UInt16) : UInt16 := ByteOrder.big.get16 (o.put16 n)

/-! ## `ReadDNSEvents` -/

def dnsEventMsgOffset : Nat := 8

/-- What the loop body does with a sample. -/
inductive DnsStep
  | skip
  | process (msg : List UInt8)
  | panic
  deriving DecidableEq, Repr

/-- Body of the `ReadDNSEvents` loop after a successful `ReadInto`. -/
def readDnsEvent (o : ByteOrder) (rawSample : List UInt8) : DnsStep :=
  if rawSample.length ≤ dnsEventMsgOffset then .skip
  else
    let msgSize := o.get64 (rawSample.take dnsEventMsgOffset)
    let end_ : Int64 := Int64.ofNat dnsEventMsgOffset + msgSize.toInt64
    if msgSize = 0 ∨ end_.toInt > rawSample.length then .skip
    else if end_.toInt < dnsEventMsgOffset then .panic
    else .process (readAt rawSample dnsEventMsgOffset (end_.toInt.toNat - dnsEventMsgOffset))

/-! ## `ReadRedirectEvents` -/

/-- `AIInterceptorRedirectEventT` as Go sees it after the cast. -/
structure RedirectEvent where
  pid : UInt32
  tgid : UInt32
  originalIp : UInt32
  originalPort : UInt16
  proxyIp : UInt32
  proxyPort : UInt16
  pad : List UInt8
  hostname : List UInt8
  command : List UInt8
  commandlineLen : UInt32
  commandline : List UInt8
  timestampNs : UInt64
  deriving DecidableEq, Repr

/-- `ringbufCast` at the redirect event type. -/
def ringbufCast (o : ByteOrder) (b : List UInt8) : Option RedirectEvent :=
  if b.length < goRedirectEventT.total then none
  else
    let field := goRedirectEventT.load b
    some
      { pid := o.get32 (field .pid)
        tgid := o.get32 (field .tgid)
        originalIp := o.get32 (field .originalIp)
        originalPort := o.get16 (field .originalPort)
        proxyIp := o.get32 (field .proxyIp)
        proxyPort := o.get16 (field .proxyPort)
        pad := field .pad
        hostname := field .hostname
        command := field .command
        commandlineLen := o.get32 (field .commandlineLen)
        commandline := field .commandline
        timestampNs := o.get64 (field .timestampNs) }

/-- An `ai_traffic_redirected` line. -/
structure RedirectLine where
  pid : UInt32
  process : GoString
  originalHost : GoString
  originalIp : GoString
  originalPort : UInt16
  proxyIp : GoString
  proxyPort : UInt16
  deriving DecidableEq, Repr

/-- Body of the `ReadRedirectEvents` loop: the line it logs, if the sample is
large enough. -/
def readRedirectEvent (o : ByteOrder) (rawSample : List UInt8) : Option RedirectLine :=
  (ringbufCast o rawSample).map fun ev =>
    { pid := ev.pid
      process := int8SliceToString ev.command
      originalHost := int8SliceToString ev.hostname
      originalIp := uint32ToIP o ev.originalIp
      originalPort := ntohs o ev.originalPort
      proxyIp := uint32ToIP o ev.proxyIp
      proxyPort := ntohs o ev.proxyPort }

/-! ## Conversions -/

/-- `ntohs` of a native load is the big-endian value, and it is an involution:
the same function serves both directions. -/
theorem ntohs_get16 (o : ByteOrder) {bytes : List UInt8} (h : bytes.length = 2) :
    ntohs o (o.get16 bytes) = ByteOrder.big.get16 bytes := by
  rw [ntohs, o.put16_get16 h]

theorem put16_ntohs (o : ByteOrder) (n : UInt16) :
    o.put16 (ntohs o n) = ByteOrder.big.put16 n := by
  cases o with
  | big => rw [ntohs, ByteOrder.get16_put16]
  | little =>
      -- both sides are the two bytes of `n`, high byte first
      have hrev : ByteOrder.big.put16 n = (ByteOrder.little.put16 n).reverse := rfl
      have hget : ntohs .little n = ByteOrder.little.get16 (ByteOrder.little.put16 n).reverse := rfl
      rw [hget, ByteOrder.put16_get16 .little (by simp), hrev]

theorem ntohs_ntohs (o : ByteOrder) (n : UInt16) : ntohs o (ntohs o n) = n := by
  rw [ntohs, put16_ntohs, ByteOrder.get16_put16]

theorem uint32ToIP_get32 (o : ByteOrder) (ip : Ip4) :
    uint32ToIP o (o.get32 ip.bytes) = ipString ip := by
  rw [uint32ToIP, o.put32_get32 ip.bytes_length, Ip4.ofBytes_bytes]

/-! ## The bound of a sample -/

/-- `msg_size` of a raw sample. -/
def sampleSize (o : ByteOrder) (raw : List UInt8) : UInt64 := o.get64 (raw.take dnsEventMsgOffset)

/-- The upper bound of the slice, in Go's `int`. -/
def sampleEnd (o : ByteOrder) (raw : List UInt8) : Int :=
  (Int64.ofNat dnsEventMsgOffset + (sampleSize o raw).toInt64).toInt

theorem readDnsEvent_short {o : ByteOrder} {raw : List UInt8} (h : raw.length ≤ 8) :
    readDnsEvent o raw = .skip := if_pos h

theorem readDnsEvent_long {o : ByteOrder} {raw : List UInt8} (h : ¬ raw.length ≤ 8) :
    readDnsEvent o raw =
      if sampleSize o raw = 0 ∨ sampleEnd o raw > raw.length then .skip
      else if sampleEnd o raw < 8 then .panic
      else .process (readAt raw 8 ((sampleEnd o raw).toNat - 8)) := if_neg h

/-- The addition wraps around `2 ^ 64` into the signed range. -/
theorem sampleEnd_eq_bmod (o : ByteOrder) (raw : List UInt8) :
    sampleEnd o raw = ((8 + (sampleSize o raw).toNat : Nat) : Int).bmod (2 ^ 64) := by
  have hsize : sampleSize o raw = UInt64.ofNat (sampleSize o raw).toNat := UInt64.ofNat_toNat.symm
  rw [sampleEnd, hsize, UInt64.toInt64_ofNat', ← Int64.ofNat_add, dnsEventMsgOffset,
    Int64.toInt_ofNat', ← hsize]
  rfl

/-- Below `2 ^ 63` the bound is exact. -/
theorem sampleEnd_exact {o : ByteOrder} {raw : List UInt8}
    (h : 8 + (sampleSize o raw).toNat < 2 ^ 63) :
    sampleEnd o raw = 8 + (sampleSize o raw).toNat := by
  rw [sampleEnd_eq_bmod, Int.bmod_def]
  omega

/-- From there on it is below the start of the message. -/
theorem sampleEnd_wrapped {o : ByteOrder} {raw : List UInt8}
    (h : 2 ^ 63 ≤ 8 + (sampleSize o raw).toNat) : sampleEnd o raw < 8 := by
  have hlt : (sampleSize o raw).toNat < 2 ^ 64 := (sampleSize o raw).toNat_lt
  rw [sampleEnd_eq_bmod, Int.bmod_def]
  omega

/-- A sample whose size field is positive and fits is handed on from byte 8. -/
theorem readDnsEvent_process {o : ByteOrder} {raw : List UInt8}
    (hpos : 0 < (sampleSize o raw).toNat) (hfit : 8 + (sampleSize o raw).toNat ≤ raw.length)
    (hlt : 8 + (sampleSize o raw).toNat < 2 ^ 63) :
    readDnsEvent o raw = .process (readAt raw 8 (sampleSize o raw).toNat) := by
  have hend := sampleEnd_exact hlt
  have hne : sampleSize o raw ≠ 0 := by
    intro h0
    rw [h0] at hpos
    exact absurd hpos (by decide)
  rw [readDnsEvent_long (by omega), if_neg (by rintro (h | h) <;> [exact hne h; omega]),
    if_neg (by omega)]
  congr 2
  omega

end AiInterceptor.Agent
