import AiInterceptor.Logic.Observer
import AiInterceptor.Agent.Reader

/-!
# From a frame on the wire to the DNS parser

A DNS response travels through two programs that share only a record layout:
the TC hook copies it out of the frame into a ring-buffer slot with stale
contents, and `ReadDNSEvents` slices it out of the raw sample. For every legal
header stack, with IP and TCP options of any size, the parser is handed exactly
the bytes of the message.
-/

namespace AiInterceptor.Theorems.FrameRoundTrip

open Lib Bpf Agent

/-! ## Frames -/

/-- An IPv4 header with any options; the low nibble of its first byte counts
its 32-bit words. -/
structure Ipv4Header (proto : UInt8) where
  bytes : List UInt8
  versionIhl : UInt8
  first : bytes[0]? = some versionIhl
  ihl_ge : 5 ≤ (versionIhl &&& 0x0f).toNat
  length_eq : bytes.length = 4 * (versionIhl &&& 0x0f).toNat
  proto_eq : bytes[9]? = some proto

/-- A UDP header with source port 53. -/
structure UdpHeader where
  bytes : List UInt8
  length_eq : bytes.length = 8
  src : readAt bytes 0 2 = [0, 53]

/-- A TCP header with source port 53 and any options; the high nibble of byte
12 counts its 32-bit words. -/
structure TcpHeader where
  bytes : List UInt8
  doff : UInt8
  offset : bytes[12]? = some doff
  doff_ge : 5 ≤ (doff >>> 4).toNat
  length_eq : bytes.length = 4 * (doff >>> 4).toNat
  src : readAt bytes 0 2 = [0, 53]

/-- What stands between the IP header and the DNS message. -/
inductive Transport
  | udp (hdr : UdpHeader)
  | tcp (hdr : TcpHeader) (lenPrefix : List UInt8) (length_eq : lenPrefix.length = 2)

namespace Transport

def proto : Transport → UInt8
  | udp _ => 17
  | tcp .. => 6

def header : Transport → List UInt8
  | udp hdr => hdr.bytes
  | tcp hdr _ _ => hdr.bytes

def lenPrefix : Transport → List UInt8
  | udp _ => []
  | tcp _ p _ => p

theorem src (t : Transport) : readAt t.header 0 2 = [0, 53] := by
  cases t with
  | udp hdr => exact hdr.src
  | tcp hdr _ _ => exact hdr.src

end Transport

/-- A DNS response the hook accepts: a header, the QR bit, a non-zero
ANCOUNT. -/
structure IsDnsResponse (d : List UInt8) : Prop where
  header : 12 ≤ d.length
  qr : d.getD 2 0 &&& 0x80 ≠ 0
  ancount : ByteOrder.big.get16 (readAt d 6 2) ≠ 0

/-! ## Windows of a concatenation -/

theorem getElem?_middle {α : Type} (a b c : List α) {i : Nat} (h : i < b.length) :
    (a ++ b ++ c)[a.length + i]? = b[i]? := by
  rw [List.append_assoc, List.getElem?_append_right (by omega), Nat.add_sub_cancel_left,
    List.getElem?_append_left h]

theorem readAt_middle {α : Type} (a b c : List α) {len : Nat} (h : len ≤ b.length) :
    readAt (a ++ b ++ c) a.length len = readAt b 0 len := by
  rw [readAt, readAt, List.append_assoc, List.drop_left, List.drop_zero,
    List.take_append_of_le_length h]

/-! ## Offset and length -/

theorem Transport.header_ge (t : Transport) : 8 ≤ t.header.length := by
  cases t with
  | udp hdr => exact Nat.le_of_eq hdr.length_eq.symm
  | tcp hdr _ _ =>
      have h := hdr.length_eq
      have hge := hdr.doff_ge
      simp only [Transport.header]
      omega

/-- The header walk stops right where the message begins. -/
theorem payloadAt_frame (t : Transport) (ip : Ipv4Header t.proto) {eth : List UInt8}
    (heth : eth.length = 14) (d : List UInt8) :
    PayloadAt (eth ++ ip.bytes ++ t.header ++ t.lenPrefix ++ d)
      (eth ++ ip.bytes ++ t.header ++ t.lenPrefix).length := by
  have hlen : ip.bytes.length = ipHdrBytes ip.versionIhl := ip.length_eq
  have hge : 20 ≤ ipHdrBytes ip.versionIhl := by
    have := ip.ihl_ge
    rw [ipHdrBytes]
    omega
  have hfront : (eth ++ ip.bytes).length = 14 + ipHdrBytes ip.versionIhl := by
    rw [List.length_append, heth, hlen]
  generalize hframe : eth ++ ip.bytes ++ t.header ++ t.lenPrefix ++ d = frame
  -- two views of the frame: cut behind the IP header, and behind the transport header
  have hip : frame = eth ++ ip.bytes ++ (t.header ++ t.lenPrefix ++ d) := by
    rw [← hframe]
    simp only [List.append_assoc]
  have htransport : frame = eth ++ ip.bytes ++ t.header ++ (t.lenPrefix ++ d) := by
    rw [← hframe]
    simp only [List.append_assoc]
  have hfirst : frame[14]? = some ip.versionIhl := by
    rw [hip, ← ip.first, show 14 = eth.length + 0 by omega]
    exact getElem?_middle eth ip.bytes _ (by omega)
  have hproto : frame[23]? = some t.proto := by
    rw [hip, ← ip.proto_eq, show 23 = eth.length + 9 by omega]
    exact getElem?_middle eth ip.bytes _ (by omega)
  have hsrc : readAt frame (14 + ipHdrBytes ip.versionIhl) 2 = [0, 53] := by
    have := t.header_ge
    rw [htransport, ← hfront, readAt_middle _ _ _ (by omega), t.src]
  rw [List.length_append, List.length_append, hfront]
  cases t with
  | udp hdr =>
      show PayloadAt frame (14 + ipHdrBytes ip.versionIhl + hdr.bytes.length + 0)
      rw [hdr.length_eq]
      exact .udp hfirst hge hproto hsrc
  | tcp hdr p hp =>
      have hwords : hdr.bytes.length = tcpHdrBytes hdr.doff := hdr.length_eq
      have hmin : 20 ≤ tcpHdrBytes hdr.doff := by
        have := hdr.doff_ge
        rw [tcpHdrBytes]
        omega
      -- only TCP has a data offset, and a length in front of the message
      have hdoff : frame[14 + ipHdrBytes ip.versionIhl + 12]? = some hdr.doff := by
        rw [htransport, ← hfront, ← hdr.offset]
        exact getElem?_middle (eth ++ ip.bytes) hdr.bytes _ (by omega)
      show PayloadAt frame (14 + ipHdrBytes ip.versionIhl + hdr.bytes.length + p.length)
      rw [hwords, hp]
      exact .tcp hfirst hge hproto hsrc hdoff hmin

variable {o : ByteOrder} {skb : Skb}

/-- Up to 512 bytes behind the offset, the mask changes nothing. -/
theorem payloadLen_frame {front d : List UInt8} {off : UInt16} (hoff : off.toNat = front.length)
    (hskb : skb.bytes = front ++ d) (hmin : 12 ≤ d.length) (hmax : d.length ≤ 512) :
    payloadLen skb off = some (UInt32.ofNat d.length) := by
  have hlen : (UInt32.ofNat d.length).toNat = d.length := by
    rw [UInt32.toNat_ofNat']
    omega
  rw [payloadLen_iff, hlen, hoff, hskb, List.length_append]
  omega

/-! ## The record -/

/-- The slot after both stores. -/
def filledSlot (o : ByteOrder) (slot : Record dnsEventT) (len : UInt32) (d : List UInt8) :
    List UInt8 :=
  dnsEventT.store (dnsEventT.store slot.bytes .msgSize (o.put64 len.toUInt64)) .msg d

theorem filledSlot_eq (o : ByteOrder) (slot : Record dnsEventT) (len : UInt32) (d : List UInt8) :
    filledSlot o slot len d = writeAt (writeAt slot.bytes 0 (o.put64 len.toUInt64)) 8 d := rfl

theorem sizeStored_length (o : ByteOrder) (slot : Record dnsEventT) (len : UInt32) :
    (writeAt slot.bytes 0 (o.put64 len.toUInt64)).length = 520 := by
  have hslot : slot.bytes.length = 520 := slot.length_eq
  rw [writeAt_length (by rw [ByteOrder.put64_length]; omega), hslot]

/-- The message bytes of the record, as `is_valid_dns_response` indexes them. -/
theorem filledSlot_msg_getD {slot : Record dnsEventT} {len : UInt32} {d : List UInt8}
    (hd : d.length ≤ 512) {i : Nat} (hi : i < d.length) :
    (dnsEventT.load (filledSlot o slot len d) .msg).getD i 0 = d.getD i 0 := by
  have hlen := sizeStored_length o slot len
  rw [List.getD_eq_getElem?_getD, List.getD_eq_getElem?_getD]
  show ((readAt (filledSlot o slot len d) 8 512)[i]?).getD 0 = _
  rw [readAt_getElem?, if_pos (by omega), filledSlot_eq, writeAt_getElem? (by omega),
    if_pos (by omega), Nat.add_sub_cancel_left]

/-- The count the hook assembles from two bytes is their big-endian value. -/
theorem ancount_eq (hi lo : UInt8) :
    (hi.toUInt16 <<< 8) ||| lo.toUInt16 = ByteOrder.big.get16 [hi, lo] := by
  have hhi : hi.toNat < 256 := hi.toNat_lt
  have hlo : lo.toNat < 256 := lo.toNat_lt
  have hshift : hi.toNat <<< 8 % 2 ^ 16 = hi.toNat <<< 8 := by
    rw [Nat.shiftLeft_eq]
    omega
  apply UInt16.toNat_inj.mp
  rw [UInt16.toNat_or, UInt16.toNat_shiftLeft, UInt8.toNat_toUInt16, UInt8.toNat_toUInt16,
    ByteOrder.get16_toNat .big]
  show hi.toNat <<< 8 % 2 ^ 16 ||| lo.toNat = lo.toNat + 256 * hi.toNat
  rw [hshift, ← Nat.shiftLeft_add_eq_or_of_lt hlo, Nat.shiftLeft_eq]
  omega

theorem readAt_two {d : List UInt8} {off : Nat} (h : off + 2 ≤ d.length) :
    readAt d off 2 = [d.getD off 0, d.getD (off + 1) 0] := by
  apply List.ext_getElem?
  intro i
  rw [readAt_getElem?]
  match i with
  | 0 => simp [List.getD_eq_getElem?_getD, List.getElem?_eq_getElem (show off < d.length by omega)]
  | 1 =>
      simp [List.getD_eq_getElem?_getD, List.getElem?_eq_getElem (show off + 1 < d.length by omega)]
  | i + 2 => simp

/-- The hook's test of a copied message. -/
theorem isValidDnsResponse_iff {buf d : List UInt8} {len : UInt32} (hlen : len.toNat = d.length)
    (hmin : 12 ≤ d.length) (hbuf : ∀ i < d.length, buf.getD i 0 = d.getD i 0) :
    isValidDnsResponse buf len = true ↔ IsDnsResponse d := by
  have hlen12 : ¬ len < UInt32.ofNat dnsHdrMinLen := by
    rw [UInt32.lt_iff_toNat_lt, hlen]
    exact Nat.not_lt.mpr hmin
  have hcount : (buf.getD 6 0).toUInt16 <<< 8 ||| (buf.getD 7 0).toUInt16 =
      ByteOrder.big.get16 (readAt d 6 2) := by
    rw [hbuf 6 (by omega), hbuf 7 (by omega), ancount_eq, readAt_two (by omega)]
  rw [isValidDnsResponse, if_neg hlen12, hcount, hbuf 2 (by omega)]
  by_cases hqr : d.getD 2 0 &&& 0x80 = 0
  · rw [if_pos hqr]
    exact ⟨fun h => absurd h (by simp), fun h => absurd hqr h.qr⟩
  · rw [if_neg hqr]
    by_cases hzero : ByteOrder.big.get16 (readAt d 6 2) = 0
    · rw [if_pos hzero]
      exact ⟨fun h => absurd h (by simp), fun h => absurd hzero h.ancount⟩
    · rw [if_neg hzero]
      exact ⟨fun _ => ⟨hmin, hqr, hzero⟩, fun _ => rfl⟩

/-- The hook submits the slot holding the message. -/
theorem capture_frame {slot : Record dnsEventT} {front d : List UInt8} {off : UInt16}
    {len : UInt32} (hd : IsDnsResponse d) (hmax : d.length ≤ 512)
    (hoff : off.toNat = front.length) (hlen : len.toNat = d.length)
    (hskb : skb.bytes = front ++ d) :
    capture o skb off len slot = .submit (filledSlot o slot len d) := by
  have hload : bpfSkbLoadBytes skb off.toNat len.toNat = some d := by
    have hmid := readAt_middle front d [] (Nat.le_refl d.length)
    rw [List.append_nil] at hmid
    rw [hoff, hlen, bpfSkbLoadBytes_eq_some (by rw [hskb, List.length_append]), hskb, hmid, readAt,
      List.drop_zero, List.take_length]
  have hbuf : ∀ i < d.length,
      (dnsEventT.load (filledSlot o slot len d) .msg).getD i 0 = d.getD i 0 :=
    fun i hi => filledSlot_msg_getD hmax hi
  have hvalid := (isValidDnsResponse_iff hlen hd.header hbuf).mpr hd
  simp only [capture, hload]
  exact if_pos hvalid

/-- Storing the message leaves the size field alone. -/
theorem filledSlot_msgSize {slot : Record dnsEventT} {len : UInt32} {d : List UInt8}
    (hmax : d.length ≤ 512) :
    readAt (filledSlot o slot len d) 0 8 = o.put64 len.toUInt64 := by
  have hsized := sizeStored_length o slot len
  have hslot : slot.bytes.length = 520 := slot.length_eq
  have hmsg : readAt (filledSlot o slot len d) 0 8 =
      readAt (writeAt slot.bytes 0 (o.put64 len.toUInt64)) 0 8 := by
    rw [filledSlot_eq]
    exact readAt_writeAt_of_disjoint (by omega) (.inl (Nat.le_refl 8))
  have hself : readAt (writeAt slot.bytes 0 (o.put64 len.toUInt64)) 0
      (o.put64 len.toUInt64).length = o.put64 len.toUInt64 :=
    readAt_writeAt_self (by rw [ByteOrder.put64_length]; omega)
  rw [ByteOrder.put64_length] at hself
  exact hmsg.trans hself

theorem filledSlot_msg {slot : Record dnsEventT} {len : UInt32} {d : List UInt8}
    (hmax : d.length ≤ 512) : readAt (filledSlot o slot len d) 8 d.length = d := by
  have hsized := sizeStored_length o slot len
  rw [filledSlot_eq, readAt_writeAt_self (by omega)]

/-- The reader slices the message back out of the record. -/
theorem readDnsEvent_filledSlot {slot : Record dnsEventT} {len : UInt32} {d : List UInt8}
    (hpos : 0 < d.length) (hmax : d.length ≤ 512) (hlen : len.toNat = d.length) :
    readDnsEvent o (filledSlot o slot len d) = .process d := by
  have hsized := sizeStored_length o slot len
  have htotal : (filledSlot o slot len d).length = 520 := by
    rw [filledSlot_eq, writeAt_length (by omega), hsized]
  have hget : (sampleSize o (filledSlot o slot len d)).toNat = d.length := by
    show (o.get64 (readAt (filledSlot o slot len d) 0 8)).toNat = d.length
    rw [filledSlot_msgSize hmax, ByteOrder.get64_put64, UInt32.toNat_toUInt64, hlen]
  rw [readDnsEvent_process (by omega) (by omega) (by omega), hget, filledSlot_msg hmax]

/-- **Frame to parser.** For every DNS response of at most 512 bytes behind any
Ethernet header, any IPv4 header and any UDP or TCP header with source port 53,
and for every stale slot, the TC hook submits exactly one record and the reader
passes exactly the response to `ProcessDNSEvent`. -/
theorem frame_round_trip (o : ByteOrder) (eth : List UInt8) (heth : eth.length = 14)
    (t : Transport) (ip : Ipv4Header t.proto) (d : List UInt8) (hd : IsDnsResponse d)
    (hmax : d.length ≤ 512) (slot : Record dnsEventT) (skb : Skb)
    (hskb : skb.bytes = eth ++ ip.bytes ++ t.header ++ t.lenPrefix ++ d) :
    ∃ record,
      tcDnsObserver o skb (some slot) = ⟨tcActOk, [.reserve true, .submit record]⟩ ∧
      readDnsEvent o record = .process d := by
  have hat := payloadAt_frame t ip heth d
  rw [← hskb] at hat
  obtain ⟨off, hoff, hoffNat⟩ := hat.exists_offset o
  have hlen := payloadLen_frame hoffNat hskb hd.header hmax
  have hlenNat : (UInt32.ofNat d.length).toNat = d.length := by
    rw [UInt32.toNat_ofNat']
    omega
  refine ⟨filledSlot o slot (UInt32.ofNat d.length) d, ?_, ?_⟩
  · rw [tcDnsObserver, hoff]
    simp only [hlen]
    rw [capture_frame hd hmax hoffNat hlenNat hskb]
  · have hpos := hd.header
    exact readDnsEvent_filledSlot (by omega) hmax hlenNat

/-! ### A minimal response over UDP -/

def udpExample : UdpHeader := ⟨[0, 53, 200, 0, 0, 20, 0, 0], rfl, rfl⟩

def ipExample : Ipv4Header (Transport.udp udpExample).proto :=
  ⟨0x45 :: List.replicate 8 0 ++ [17] ++ List.replicate 10 0, 0x45, rfl, by decide, by decide, rfl⟩

def dnsExample : List UInt8 := [0, 1, 0x81, 0x80, 0, 1, 0, 1, 0, 0, 0, 0]

theorem dnsExample_isDnsResponse : IsDnsResponse dnsExample := ⟨by decide, by decide, by decide⟩

def skbExample : Skb :=
  ⟨List.replicate 14 0 ++ ipExample.bytes ++ udpExample.bytes ++ [] ++ dnsExample, by decide⟩

theorem frame_round_trip_udp :
    IsDnsResponse dnsExample ∧ dnsExample.length ≤ 512 ∧
    ∃ record,
      tcDnsObserver .little skbExample (some (Record.zero dnsEventT)) =
        ⟨tcActOk, [.reserve true, .submit record]⟩ ∧
      readDnsEvent .little record = .process dnsExample :=
  ⟨dnsExample_isDnsResponse, by decide,
    frame_round_trip .little (List.replicate 14 0) (by decide) (.udp udpExample) ipExample
      dnsExample dnsExample_isDnsResponse (by decide) (Record.zero dnsEventT) skbExample rfl⟩

end AiInterceptor.Theorems.FrameRoundTrip
