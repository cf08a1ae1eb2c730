import AiInterceptor.Bpf.Observer

/-!
# The header walk of the TC hook

`PayloadAt` says which frames pass the header checks and where their payload
starts, in exact arithmetic; the hook computes an offset exactly for these
(`payloadOffset_iff`), since two nibbles cannot reach the 16-bit limit. What is
left of the frame behind it, modulo 1024, is the length it goes on with
(`payloadLen_iff`).
-/

namespace AiInterceptor.Bpf

open Lib

/-! ## Offsets -/

theorem nibble_low_le (b : UInt8) : (b &&& 0x0f).toNat ≤ 15 := by
  rw [UInt8.toNat_and]
  exact Nat.and_le_right

theorem nibble_high_le (b : UInt8) : (b >>> 4).toNat ≤ 15 := by
  have hb : b.toNat < 256 := b.toNat_lt
  rw [UInt8.toNat_shiftRight]
  show b.toNat >>> 4 ≤ 15
  rw [Nat.shiftRight_eq_div_pow]
  omega

theorem words_toNat {b : UInt8} (h : b.toNat ≤ 15) : (b.toUInt16 * 4).toNat = 4 * b.toNat := by
  rw [UInt16.toNat_mul, UInt8.toNat_toUInt16]
  show b.toNat * 4 % 65536 = _
  omega

/-- Length of the IP header by its first byte. -/
def ipHdrBytes (ipHdrByte : UInt8) : Nat := 4 * (ipHdrByte &&& 0x0f).toNat

/-- Length of the TCP header by its data-offset byte. -/
def tcpHdrBytes (doff : UInt8) : Nat := 4 * (doff >>> 4).toNat

/-- The frame passes every header check, and what follows the headers (and the
length field over TCP) starts at the given offset. -/
inductive PayloadAt (frame : List UInt8) : Nat → Prop
  | udp {b : UInt8} : frame[14]? = some b → 20 ≤ ipHdrBytes b → frame[23]? = some 17 →
      readAt frame (14 + ipHdrBytes b) 2 = [0, 53] →
      PayloadAt frame (14 + ipHdrBytes b + 8)
  | tcp {b doff : UInt8} : frame[14]? = some b → 20 ≤ ipHdrBytes b → frame[23]? = some 6 →
      readAt frame (14 + ipHdrBytes b) 2 = [0, 53] →
      frame[14 + ipHdrBytes b + 12]? = some doff → 20 ≤ tcpHdrBytes doff →
      PayloadAt frame (14 + ipHdrBytes b + tcpHdrBytes doff + 2)

/-- Every `__u16` computation of the walk, in exact arithmetic. -/
structure OffsetsExact (ipHdrByte doff : UInt8) : Prop where
  ipHdrLen : ((ipHdrByte &&& 0x0f).toUInt16 * 4).toNat = ipHdrBytes ipHdrByte
  transportOffset : (UInt16.ofNat ethHdrLen + (ipHdrByte &&& 0x0f).toUInt16 * 4).toNat =
    14 + ipHdrBytes ipHdrByte
  doffLen : ((doff >>> 4).toUInt16 * 4).toNat = tcpHdrBytes doff
  udpPayload : (UInt16.ofNat ethHdrLen + (ipHdrByte &&& 0x0f).toUInt16 * 4 +
    UInt16.ofNat udpHdrLen + 0).toNat = 14 + ipHdrBytes ipHdrByte + 8
  tcpPayload : (UInt16.ofNat ethHdrLen + (ipHdrByte &&& 0x0f).toUInt16 * (4 : UInt16) +
    (doff >>> 4).toUInt16 * (4 : UInt16) + UInt16.ofNat dnsTcpLenPrefix).toNat =
      14 + ipHdrBytes ipHdrByte + tcpHdrBytes doff + 2

theorem ipHdrBytes_le (b : UInt8) : ipHdrBytes b ≤ 60 := by
  have := nibble_low_le b
  rw [ipHdrBytes]
  omega

theorem tcpHdrBytes_le (b : UInt8) : tcpHdrBytes b ≤ 60 := by
  have := nibble_high_le b
  rw [tcpHdrBytes]
  omega

/-- Two nibbles cannot reach the 16-bit limit. -/
theorem offsetsExact (ipHdrByte doff : UInt8) : OffsetsExact ipHdrByte doff := by
  have hip : ((ipHdrByte &&& 0x0f).toUInt16 * 4).toNat = ipHdrBytes ipHdrByte :=
    words_toNat (nibble_low_le ipHdrByte)
  have htcp : ((doff >>> 4).toUInt16 * 4).toNat = tcpHdrBytes doff :=
    words_toNat (nibble_high_le doff)
  have hipLe := ipHdrBytes_le ipHdrByte
  have htcpLe := tcpHdrBytes_le doff
  have htransport : (UInt16.ofNat ethHdrLen + (ipHdrByte &&& 0x0f).toUInt16 * 4).toNat =
      14 + ipHdrBytes ipHdrByte := by
    rw [UInt16.toNat_add, hip]
    show (14 + ipHdrBytes ipHdrByte) % 65536 = _
    omega
  refine ⟨hip, htransport, htcp, ?_, ?_⟩
  · rw [UInt16.toNat_add, UInt16.toNat_add, htransport]
    show ((14 + ipHdrBytes ipHdrByte + 8) % 65536 + 0) % 65536 = _
    omega
  · rw [UInt16.toNat_add, UInt16.toNat_add, htransport, htcp]
    show ((14 + ipHdrBytes ipHdrByte + tcpHdrBytes doff) % 65536 + 2) % 65536 = _
    omega

/-! ## The walk -/

theorem PayloadAt.le {frame : List UInt8} {p : Nat} (h : PayloadAt frame p) : p ≤ 136 := by
  cases h with
  | @udp b _ _ _ _ =>
      have := ipHdrBytes_le b
      omega
  | @tcp b doff _ _ _ _ _ _ =>
      have := ipHdrBytes_le b
      have := tcpHdrBytes_le doff
      omega

variable {skb : Skb}

/-- The port test of the hook, on the two bytes in the frame. -/
theorem port_iff (o : ByteOrder) (skb : Skb) (off : Nat) :
    (∃ bytes, bpfSkbLoadBytes skb off 2 = some bytes ∧ bpfNtohs o (o.get16 bytes) = 53) ↔
      readAt skb.bytes off 2 = [0, 53] := by
  constructor
  · rintro ⟨bytes, hload, hport⟩
    obtain ⟨hfit, heq⟩ := Option.ite_none_right_eq_some.mp hload
    obtain rfl := Option.some.inj heq
    obtain ⟨a, b, hab⟩ := List.length_eq_two.mp (readAt_length hfit)
    rw [hab] at hport ⊢
    have ha : a.toNat < 256 := a.toNat_lt
    have hb : b.toNat < 256 := b.toNat_lt
    have hval := congrArg UInt16.toNat hport
    rw [bpfNtohs_get16, ByteOrder.get16_toNat .big] at hval
    have hval : b.toNat + 256 * a.toNat = 53 := hval
    have ha0 : a = 0 := UInt8.toNat_inj.mp (show a.toNat = 0 by omega)
    have hb53 : b = 53 := UInt8.toNat_inj.mp (show b.toNat = 53 by omega)
    rw [ha0, hb53]
  · intro hread
    have hfit : off + 2 ≤ skb.bytes.length := by
      have hlen := congrArg List.length hread
      simp only [readAt, List.length_take, List.length_drop, List.length_cons,
        List.length_nil] at hlen
      omega
    refine ⟨[0, 53], by rw [bpfSkbLoadBytes_eq_some hfit, hread], ?_⟩
    rw [bpfNtohs_get16]
    decide

theorem transportHdrLen_iff {skb : Skb} {ipProto : UInt8} {off len : UInt16} :
    transportHdrLen skb ipProto off = some len ↔
      (ipProto = 17 ∧ len = UInt16.ofNat udpHdrLen) ∨
      (ipProto ≠ 17 ∧ ∃ doff, skb.bytes[off.toNat + 12]? = some doff ∧ 20 ≤ tcpHdrBytes doff ∧
        len = (doff >>> 4).toUInt16 * 4) := by
  unfold transportHdrLen
  by_cases hudp : ipProto = 17
  · simp [hudp, eq_comm]
  · rw [if_neg hudp]
    simp only [hudp, loadU8_eq, Option.bind_eq_bind, Option.bind_eq_some_iff,
      Option.ite_none_left_eq_some, Option.some.injEq, false_and, false_or, ne_eq,
      not_false_eq_true, true_and]
    refine exists_congr fun doff => and_congr_right fun _ => and_congr ?_ eq_comm
    rw [UInt16.lt_iff_toNat_lt, (offsetsExact 0 doff).doffLen]
    exact Nat.not_lt

theorem ipHdrLen_iff (b : UInt8) :
    ¬ (b &&& 0x0f).toUInt16 * 4 < UInt16.ofNat ipHdrMinlen ↔ 20 ≤ ipHdrBytes b := by
  rw [UInt16.lt_iff_toNat_lt, (offsetsExact b 0).ipHdrLen]
  exact Nat.not_lt

/-- The hook computes a payload offset exactly when the frame has one, and it is
that one. -/
theorem payloadOffset_iff (o : ByteOrder) (skb : Skb) (off : UInt16) :
    payloadOffset o skb = some off ↔ PayloadAt skb.bytes off.toNat := by
  unfold payloadOffset
  simp only [Option.bind_eq_bind, Option.pure_def, loadU8_eq, Option.bind_none,
    Option.bind_eq_some_iff, Option.ite_none_left_eq_some, ipHdrLen_iff, transportHdrLen_iff]
  constructor
  · rintro ⟨b, hb, hihl, ipProto, hproto, hudpTcp, bytes, hload, hport, hdrLen, hlen, hoff⟩
    have hex := offsetsExact b
    have hsrc : readAt skb.bytes (14 + ipHdrBytes b) 2 = [0, 53] := by
      rw [← (hex 0).transportOffset]
      exact (port_iff o skb _).mp ⟨bytes, hload, not_not.mp hport⟩
    rw [← Option.some.inj hoff]
    rcases hlen with ⟨rfl, rfl⟩ | ⟨hne, doff, hdoff, hge, rfl⟩
    · rw [if_neg (by decide), (hex 0).udpPayload]
      exact .udp hb hihl hproto hsrc
    · obtain rfl : ipProto = 6 := by
        by_contra h6
        exact hudpTcp ⟨hne, h6⟩
      rw [(hex doff).transportOffset] at hdoff
      rw [if_pos rfl, (hex doff).tcpPayload]
      exact .tcp hb hihl hproto hsrc hdoff hge
  · intro h
    -- one witness for each load of the walk
    have hport : ∀ b : UInt8, readAt skb.bytes (14 + ipHdrBytes b) 2 = [0, 53] → ∃ bytes,
        bpfSkbLoadBytes skb (UInt16.ofNat ethHdrLen + (b &&& 15).toUInt16 * 4).toNat 2 =
          some bytes ∧ bpfNtohs o (o.get16 bytes) = 53 := by
      intro b hsrc
      rw [← (offsetsExact b 0).transportOffset] at hsrc
      exact (port_iff o skb _).mpr hsrc
    generalize hp : off.toNat = p at h
    cases h with
    | @udp b hb hihl hproto hsrc =>
        obtain ⟨bytes, hload, h53⟩ := hport b hsrc
        refine ⟨b, hb, hihl, 17, hproto, by decide, bytes, hload, not_not.mpr h53, _,
          .inl ⟨rfl, rfl⟩, congrArg some (UInt16.toNat_inj.mp ?_)⟩
        rw [hp, if_neg (by decide), (offsetsExact b 0).udpPayload]
    | @tcp b doff hb hihl hproto hsrc hdoff hge =>
        obtain ⟨bytes, hload, h53⟩ := hport b hsrc
        rw [← (offsetsExact b doff).transportOffset] at hdoff
        refine ⟨b, hb, hihl, 6, hproto, by decide, bytes, hload, not_not.mpr h53, _,
          .inr ⟨by decide, doff, hdoff, hge, rfl⟩, congrArg some (UInt16.toNat_inj.mp ?_)⟩
        rw [hp, if_pos rfl, (offsetsExact b doff).tcpPayload]

/-- Every offset the frame has fits the hook's 16 bits. -/
theorem PayloadAt.exists_offset {p : Nat} (h : PayloadAt skb.bytes p) (o : ByteOrder) :
    ∃ off : UInt16, payloadOffset o skb = some off ∧ off.toNat = p := by
  have hp : (UInt16.ofNat p).toNat = p := by
    have := h.le
    rw [UInt16.toNat_ofNat']
    omega
  refine ⟨UInt16.ofNat p, (payloadOffset_iff o skb _).mpr ?_, hp⟩
  rwa [hp]

theorem PayloadAt.unique {p q : Nat} (h : PayloadAt skb.bytes p) (h' : PayloadAt skb.bytes q) :
    p = q := by
  obtain ⟨off, hoff, rfl⟩ := h.exists_offset .big
  obtain ⟨off', hoff', rfl⟩ := h'.exists_offset .big
  rw [Option.some.inj (hoff.symm.trans hoff')]

/-- The mask keeps the low ten bits of what is left of the frame. -/
theorem payloadLen_iff {off : UInt16} {len : UInt32} :
    payloadLen skb off = some len ↔
      off.toNat < skb.bytes.length ∧ len.toNat = (skb.bytes.length - off.toNat) % 1024 ∧
        12 ≤ len.toNat ∧ len.toNat ≤ 512 := by
  have hlen : skb.len.toNat = skb.bytes.length := by
    rw [Skb.len, UInt32.toNat_ofNat', Nat.mod_eq_of_lt skb.len_lt]
  unfold payloadLen
  rw [Option.ite_none_left_eq_some, ge_iff_le, UInt32.le_iff_toNat_le, hlen, UInt16.toNat_toUInt32,
    Nat.not_le]
  refine and_congr_right fun hin => ?_
  have hsub : (skb.len - off.toUInt32).toNat = skb.bytes.length - off.toNat := by
    have hle : off.toUInt32 ≤ skb.len := by
      rw [UInt32.le_iff_toNat_le, hlen, UInt16.toNat_toUInt32]
      omega
    rw [UInt32.toNat_sub_of_le _ _ hle, hlen, UInt16.toNat_toUInt32]
  have hmask : ((skb.len - off.toUInt32) &&& UInt32.ofNat (2 * maxDnsMsgSize - 1)).toNat =
      (skb.bytes.length - off.toNat) % 1024 := by
    rw [UInt32.toNat_and, hsub]
    exact Nat.and_two_pow_sub_one_eq_mod _ 10
  rw [Option.ite_none_left_eq_some, Option.some.injEq, ← UInt32.toNat_inj, gt_iff_lt,
    UInt32.lt_iff_toNat_lt, UInt32.lt_iff_toNat_lt, hmask]
  show (¬ ((skb.bytes.length - off.toNat) % 1024 < 12 ∨
    512 < (skb.bytes.length - off.toNat) % 1024) ∧ _ = len.toNat) ↔ _
  omega

end AiInterceptor.Bpf
