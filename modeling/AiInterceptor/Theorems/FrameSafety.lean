import AiInterceptor.Theorems.FrameRoundTrip

/-!
# What the TC hook submits

The filter runs on every frame of the interface, so the header walk reads bytes
at fixed offsets of anything at all. `PayloadAt` describes the frames that pass
it, in exact arithmetic, and `Accepted` those that are submitted once a slot is
to be had; `submit_iff` is the one fact about the hook that the results below
rest on. It shows the error branch after the reservation dead and the copied
range exact, and it shows two holes: the length is reduced modulo 1024 before
its bounds are tested, and nothing in the walk asks for an IPv4 packet.
-/

namespace AiInterceptor.Theorems.FrameSafety

open Lib Bpf FrameRoundTrip

/-! ## The length and the message -/

/-- A frame for which a slot is asked, with the payload offset and the length
its message is taken to have. -/
structure Reserved (frame : List UInt8) (p n : Nat) : Prop where
  headers : PayloadAt frame p
  inside : p < frame.length
  length_eq : n = (frame.length - p) % 1024
  min : 12 ≤ n
  max : n ≤ 512

/-- A frame that is submitted once a slot is to be had. -/
structure Accepted (frame : List UInt8) (p n : Nat) : Prop extends Reserved frame p n where
  response : IsDnsResponse (readAt frame p n)

variable {skb : Skb} {p n : Nat}

/-- The masked length never reaches past the frame, so the load after the
reservation succeeds. -/
theorem Reserved.fits {frame : List UInt8} (h : Reserved frame p n) : p + n ≤ frame.length := by
  have hle := Nat.mod_le (frame.length - p) 1024
  have hin := h.inside
  have hn := h.length_eq
  omega

/-- The words the hook holds when it asks for a slot. -/
theorem reserved_iff (o : ByteOrder) :
    Reserved skb.bytes p n ↔ ∃ (off : UInt16) (len : UInt32), off.toNat = p ∧ len.toNat = n ∧
      payloadOffset o skb = some off ∧ payloadLen skb off = some len := by
  constructor
  · intro h
    obtain ⟨off, hoff, rfl⟩ := h.headers.exists_offset o
    have hmax := h.max
    have hn : (UInt32.ofNat n).toNat = n := by
      rw [UInt32.toNat_ofNat']
      omega
    refine ⟨off, UInt32.ofNat n, rfl, hn, hoff, payloadLen_iff.mpr ?_⟩
    rw [hn]
    exact ⟨h.inside, h.length_eq, h.min, h.max⟩
  · rintro ⟨off, len, rfl, rfl, hoff, hlen⟩
    obtain ⟨hin, heq, hmin, hmax⟩ := payloadLen_iff.mp hlen
    exact ⟨(payloadOffset_iff o skb off).mp hoff, hin, heq, hmin, hmax⟩

/-- The record the hook fills for a frame. -/
def record (o : ByteOrder) (slot : Record dnsEventT) (frame : List UInt8) (p n : Nat) :
    List UInt8 :=
  filledSlot o slot (UInt32.ofNat n) (readAt frame p n)

/-- A reserved slot is resolved once, by the response test alone. -/
theorem capture_reserved (o : ByteOrder) (slot : Record dnsEventT) {off : UInt16} {len : UInt32}
    (h : Reserved skb.bytes off.toNat len.toNat) :
    (IsDnsResponse (readAt skb.bytes off.toNat len.toNat) ∧
      capture o skb off len slot = .submit (record o slot skb.bytes off.toNat len.toNat)) ∨
    (¬ IsDnsResponse (readAt skb.bytes off.toNat len.toNat) ∧
      capture o skb off len slot = .discard) := by
  have hload := bpfSkbLoadBytes_eq_some h.fits
  have hlen : (readAt skb.bytes off.toNat len.toNat).length = len.toNat := readAt_length h.fits
  have hmin := h.min
  have hmax := h.max
  have hvalid := @isValidDnsResponse_iff
    (dnsEventT.load (filledSlot o slot len (readAt skb.bytes off.toNat len.toNat)) .msg)
    (readAt skb.bytes off.toNat len.toNat) len hlen.symm (by omega)
    (fun i hi => filledSlot_msg_getD (by omega) hi)
  rw [record, UInt32.ofNat_toNat]
  unfold capture
  simp only [hload]
  by_cases hresp : IsDnsResponse (readAt skb.bytes off.toNat len.toNat)
  · exact .inl ⟨hresp, if_pos (hvalid.mpr hresp)⟩
  · exact .inr ⟨hresp, if_neg fun hv => hresp (hvalid.mp hv)⟩

/-- Everything the hook can do with a frame. -/
theorem tcDnsObserver_cases (o : ByteOrder) (skb : Skb) (slot : Option (Record dnsEventT)) :
    ((∀ p n, ¬ Reserved skb.bytes p n) ∧ tcDnsObserver o skb slot = ⟨tcActOk, []⟩) ∨
    ∃ p n, Reserved skb.bytes p n ∧
      ((slot = none ∧ tcDnsObserver o skb slot = ⟨tcActOk, [.reserve false]⟩) ∨
      ∃ s, slot = some s ∧
        ((IsDnsResponse (readAt skb.bytes p n) ∧ tcDnsObserver o skb slot =
            ⟨tcActOk, [.reserve true, .submit (record o s skb.bytes p n)]⟩) ∨
        (¬ IsDnsResponse (readAt skb.bytes p n) ∧ tcDnsObserver o skb slot =
            ⟨tcActOk, [.reserve true, .discard]⟩))) := by
  unfold tcDnsObserver
  cases hoff : payloadOffset o skb with
  | none =>
      refine .inl ⟨?_, rfl⟩
      intro p n h
      obtain ⟨off, len, _, _, hoff', _⟩ := (reserved_iff o).mp h
      rw [hoff] at hoff'
      exact absurd hoff' (by simp)
  | some off =>
      cases hlen : payloadLen skb off with
      | none =>
          refine .inl ⟨?_, by simp only [hlen]⟩
          intro p n h
          obtain ⟨off', len, _, _, hoff', hlen'⟩ := (reserved_iff o).mp h
          obtain rfl := Option.some.inj (hoff.symm.trans hoff')
          rw [hlen] at hlen'
          exact absurd hlen' (by simp)
      | some len =>
          have h : Reserved skb.bytes off.toNat len.toNat :=
            (reserved_iff o).mpr ⟨off, len, rfl, rfl, hoff, hlen⟩
          refine .inr ⟨off.toNat, len.toNat, h, ?_⟩
          -- the slot is reserved from here on, and each way out submits or discards it
          simp only [hlen]
          cases slot with
          | none => exact .inl ⟨rfl, rfl⟩
          | some s =>
              refine .inr ⟨s, rfl, ?_⟩
              rcases capture_reserved o s h with ⟨hresp, hcap⟩ | ⟨hresp, hcap⟩
              · exact .inl ⟨hresp, by simp only [hcap]⟩
              · exact .inr ⟨hresp, by simp only [hcap]⟩

/-- The offset and the length of a reserved frame are unique. -/
theorem Reserved.unique {p' n' : Nat} (h : Reserved skb.bytes p n) (h' : Reserved skb.bytes p' n') :
    p = p' ∧ n = n' := by
  have hp := h.headers.unique h'.headers
  subst hp
  exact ⟨rfl, h.length_eq.trans h'.length_eq.symm⟩

/-- The records the hook submits. -/
theorem submit_iff (o : ByteOrder) (skb : Skb) (slot : Option (Record dnsEventT))
    (r : List UInt8) :
    .submit r ∈ (tcDnsObserver o skb slot).ring ↔
      ∃ s p n, slot = some s ∧ Accepted skb.bytes p n ∧ r = record o s skb.bytes p n := by
  rcases tcDnsObserver_cases o skb slot with ⟨hnone, heq⟩ | ⟨p, n, hres, hrest⟩
  · rw [heq]
    refine ⟨fun h => absurd h (by simp), ?_⟩
    rintro ⟨s, p, n, _, hacc, _⟩
    exact absurd hacc.toReserved (hnone p n)
  · rcases hrest with ⟨rfl, heq⟩ | ⟨s, rfl, ⟨hresp, heq⟩ | ⟨hresp, heq⟩⟩
    · rw [heq]
      exact ⟨fun h => absurd h (by simp), fun ⟨s, _, _, hs, _⟩ => absurd hs (by simp)⟩
    · rw [heq]
      constructor
      · intro h
        refine ⟨s, p, n, rfl, ⟨hres, hresp⟩, ?_⟩
        simpa using h
      · rintro ⟨s', p', n', hs, hacc, rfl⟩
        obtain rfl := Option.some.inj hs
        -- the headers leave one place for the message
        obtain ⟨rfl, rfl⟩ := hres.unique hacc.toReserved
        simp
    · rw [heq]
      refine ⟨fun h => absurd h (by simp), ?_⟩
      rintro ⟨s', p', n', _, hacc, _⟩
      obtain ⟨rfl, rfl⟩ := hres.unique hacc.toReserved
      exact absurd hacc.response hresp

/-! ## The submitted record -/

/-- `msg_size` of a record. -/
def msgSize (o : ByteOrder) (r : List UInt8) : Nat := (o.get64 (dnsEventT.load r .msgSize)).toNat

/-- `msg[0 .. msg_size)` of a record. -/
def msgBytes (o : ByteOrder) (r : List UInt8) : List UInt8 :=
  (dnsEventT.load r .msg).take (msgSize o r)

section Record

variable {o : ByteOrder} {s : Record dnsEventT}

theorem Reserved.record_size (h : Reserved skb.bytes p n) :
    msgSize o (record o s skb.bytes p n) = n := by
  have hmax := h.max
  have hlen := readAt_length h.fits
  show (o.get64 (readAt (record o s skb.bytes p n) 0 8)).toNat = n
  rw [record, filledSlot_msgSize (by omega), ByteOrder.get64_put64, UInt32.toNat_toUInt64,
    UInt32.toNat_ofNat']
  omega

theorem Reserved.record_msg (h : Reserved skb.bytes p n) :
    msgBytes o (record o s skb.bytes p n) = readAt skb.bytes p n := by
  have hmax := h.max
  have hlen := readAt_length h.fits
  have hmsg := @filledSlot_msg o s (UInt32.ofNat n) (readAt skb.bytes p n) (by omega)
  rw [msgBytes, h.record_size]
  show (readAt (record o s skb.bytes p n) 8 512).take n = _
  rw [hlen] at hmsg
  rw [readAt, List.take_take, Nat.min_eq_left hmax]
  exact hmsg

end Record

/-- At most one reservation, and a granted one is resolved exactly once. -/
inductive Resolved : List RingOp → Prop
  | idle : Resolved []
  | full : Resolved [.reserve false]
  | submitted (r : List UInt8) : Resolved [.reserve true, .submit r]
  | discarded : Resolved [.reserve true, .discard]

/-- **Safety of the TC hook.** For every frame and every state of the ring: the
hook lets the frame pass, resolves what it reserves, copies a range that lies
inside the frame and inside the slot, computes no offset modulo 2^16, and what
it submits is a DNS response of 12 to 512 bytes as it stands in the frame. -/
theorem tc_observer_safe (o : ByteOrder) (skb : Skb) (slot : Option (Record dnsEventT)) :
    (tcDnsObserver o skb slot).ret = tcActOk ∧
    Resolved (tcDnsObserver o skb slot).ring ∧
    (.reserve true ∈ (tcDnsObserver o skb slot).ring →
      ∃ off len, payloadOffset o skb = some off ∧ payloadLen skb off = some len ∧
        off.toNat + len.toNat ≤ skb.bytes.length ∧ len.toNat ≤ 512 ∧
        bpfSkbLoadBytes skb off.toNat len.toNat = some (readAt skb.bytes off.toNat len.toNat)) ∧
    (∀ ipHdrByte doff, OffsetsExact ipHdrByte doff) ∧
    (∀ off, payloadOffset o skb = some off → PayloadAt skb.bytes off.toNat) ∧
    (∀ r, .submit r ∈ (tcDnsObserver o skb slot).ring →
      ∃ off, payloadOffset o skb = some off ∧ 12 ≤ msgSize o r ∧ msgSize o r ≤ 512 ∧
        msgBytes o r = readAt skb.bytes off.toNat (msgSize o r) ∧
        (msgBytes o r).getD 2 0 &&& 0x80 ≠ 0 ∧
        ByteOrder.big.get16 (readAt (msgBytes o r) 6 2) ≠ 0) := by
  have hret : (tcDnsObserver o skb slot).ret = tcActOk ∧
      Resolved (tcDnsObserver o skb slot).ring := by
    rcases tcDnsObserver_cases o skb slot with
      ⟨_, heq⟩ | ⟨p, n, _, ⟨_, heq⟩ | ⟨s, _, ⟨_, heq⟩ | ⟨_, heq⟩⟩⟩
    · rw [heq]
      exact ⟨rfl, .idle⟩
    · rw [heq]
      exact ⟨rfl, .full⟩
    · rw [heq]
      exact ⟨rfl, .submitted _⟩
    · rw [heq]
      exact ⟨rfl, .discarded⟩
  refine ⟨hret.1, hret.2, ?_, offsetsExact, fun off => (payloadOffset_iff o skb off).mp, ?_⟩
  · intro hmem
    rcases tcDnsObserver_cases o skb slot with ⟨_, heq⟩ | ⟨p, n, hres, _⟩
    · rw [heq] at hmem
      exact absurd hmem (by simp)
    · obtain ⟨off, len, rfl, rfl, hoff, hlen⟩ := (reserved_iff o).mp hres
      exact ⟨off, len, hoff, hlen, hres.fits, hres.max, bpfSkbLoadBytes_eq_some hres.fits⟩
  · intro r hmem
    obtain ⟨s, p, n, _, hacc, rfl⟩ := (submit_iff o skb slot r).mp hmem
    obtain ⟨off, hoff, rfl⟩ := hacc.headers.exists_offset o
    rw [hacc.record_msg, hacc.record_size]
    exact ⟨off, hoff, hacc.min, hacc.max, rfl, hacc.response.qr, hacc.response.ancount⟩

/-! ## Truncation

The mask is there for the verifier. It is applied before the bounds are tested,
so they see the length modulo 1024. -/

/-- Whatever is submitted is all that follows the payload offset, and no payload
over the limit is submitted. -/
structure WholePayload (o : ByteOrder) (skb : Skb) (slot : Option (Record dnsEventT)) :
    Prop where
  whole : ∀ r off, .submit r ∈ (tcDnsObserver o skb slot).ring → payloadOffset o skb = some off →
    msgSize o r = skb.bytes.length - off.toNat ∧ msgBytes o r = skb.bytes.drop off.toNat
  oversize : ∀ off, payloadOffset o skb = some off →
    maxDnsMsgSize < skb.bytes.length - off.toNat → ∀ r, .submit r ∉ (tcDnsObserver o skb slot).ring

/-- At least 1024 bytes follow the payload offset, and the remainder modulo 1024
passes for the length of a DNS response. -/
def Aliased (frame : List UInt8) : Prop :=
  ∃ p, p + 1024 ≤ frame.length ∧ Accepted frame p ((frame.length - p) % 1024)

/-- An aliased frame is submitted although its payload is over the limit. -/
theorem Aliased.truncated (h : Aliased skb.bytes) (o : ByteOrder) (s : Record dnsEventT) :
    ¬ WholePayload o skb (some s) := by
  intro hwhole
  obtain ⟨p, hlong, hacc⟩ := h
  obtain ⟨off, hoff, rfl⟩ := hacc.headers.exists_offset o
  have hlimit : maxDnsMsgSize < skb.bytes.length - off.toNat := by
    show 512 < _
    omega
  exact hwhole.oversize off hoff hlimit _ ((submit_iff o skb _ _).mpr ⟨s, _, _, rfl, hacc, rfl⟩)

/-- **Whole payloads.** Captures are never truncated, except exactly for aliased
frames that find a slot. -/
theorem whole_payload_iff (o : ByteOrder) (skb : Skb) (slot : Option (Record dnsEventT)) :
    WholePayload o skb slot ↔ slot = none ∨ ¬ Aliased skb.bytes := by
  constructor
  · intro h
    cases slot with
    | none => exact .inl rfl
    | some s => exact .inr fun halias => halias.truncated o s h
  · intro h
    -- a submitted frame that is not aliased has fewer than 1024 bytes left
    have hshort : ∀ r off, .submit r ∈ (tcDnsObserver o skb slot).ring →
        payloadOffset o skb = some off → ∃ s n, Accepted skb.bytes off.toNat n ∧
          n = skb.bytes.length - off.toNat ∧ r = record o s skb.bytes off.toNat n := by
      intro r off hmem hoff
      obtain ⟨s, p, n, rfl, hacc, rfl⟩ := (submit_iff o skb slot r).mp hmem
      obtain rfl := hacc.headers.unique ((payloadOffset_iff o skb off).mp hoff)
      obtain rfl := hacc.length_eq
      refine ⟨s, _, hacc, ?_, rfl⟩
      rcases h with h | h
      · exact absurd h (by simp)
      · apply Nat.mod_eq_of_lt
        by_contra hlong
        exact h ⟨off.toNat, by omega, hacc⟩
    constructor
    · intro r off hmem hoff
      obtain ⟨s, n, hacc, hn, rfl⟩ := hshort r off hmem hoff
      rw [hacc.record_size, hacc.record_msg, hn]
      refine ⟨rfl, ?_⟩
      rw [readAt, ← List.length_drop, List.take_length]
    · intro off hoff hlimit r hmem
      obtain ⟨s, n, hacc, hn, _⟩ := hshort r off hmem hoff
      have hmax := hacc.max
      have hlimit : 512 < skb.bytes.length - off.toNat := hlimit
      omega

/-- The minimal response over UDP with 1024 more bytes behind it. -/
def coalescedExample : Skb :=
  ⟨skbExample.bytes ++ List.replicate 1024 0, by
    rw [List.length_append, List.length_replicate]
    decide⟩

theorem coalescedExample_length : coalescedExample.bytes.length = 1078 := by
  show (skbExample.bytes ++ List.replicate 1024 0).length = 1078
  rw [List.length_append, List.length_replicate]
  rfl

theorem coalescedExample_aliased : Aliased coalescedExample.bytes := by
  have hrest : (coalescedExample.bytes.length - 42) % 1024 = 12 := by
    rw [coalescedExample_length]
  refine ⟨42, by rw [coalescedExample_length]; omega, ?_⟩
  rw [hrest]
  have hmsg : readAt coalescedExample.bytes 42 12 = dnsExample := rfl
  exact
    { headers := .udp (b := 0x45) rfl (by decide) rfl rfl
      inside := by rw [coalescedExample_length]; omega
      length_eq := hrest.symm
      min := Nat.le_refl 12
      max := by decide
      response := by rw [hmsg]; exact dnsExample_isDnsResponse }

/-- A payload of 1036 bytes is submitted, as a message of 12. -/
theorem coalesced_payload_truncated :
    coalescedExample.bytes.length ≤ 65536 ∧
      ¬ WholePayload .little coalescedExample (some (Record.zero dnsEventT)) :=
  ⟨by rw [coalescedExample_length]; decide, coalescedExample_aliased.truncated _ _⟩

/-! ## Other protocols

The version nibble, the EtherType and the fragment offset are never read. -/

/-- An IPv4 packet that starts with its transport header: EtherType 0x0800,
version 4, fragment offset 0. -/
structure IsIpv4 (frame : List UInt8) : Prop where
  etherType : readAt frame 12 2 = [0x08, 0x00]
  version : ∃ b : UInt8, frame[14]? = some b ∧ b >>> 4 = 4
  fragment : ByteOrder.big.get16 (readAt frame 20 2) &&& 0x1fff = 0

/-- **Only IPv4.** A frame that is submitted is IPv4, except exactly when a frame
of another kind passes every check by the bytes it has at the offsets of an IPv4
packet. -/
theorem only_ipv4_iff (o : ByteOrder) (skb : Skb) (slot : Option (Record dnsEventT)) :
    (∀ r, .submit r ∈ (tcDnsObserver o skb slot).ring → IsIpv4 skb.bytes) ↔
      IsIpv4 skb.bytes ∨ slot = none ∨ ¬ ∃ p n, Accepted skb.bytes p n := by
  constructor
  · intro h
    by_cases hacc : ∃ p n, Accepted skb.bytes p n
    · obtain ⟨p, n, hacc⟩ := hacc
      cases slot with
      | none => exact .inr (.inl rfl)
      | some s => exact .inl (h _ ((submit_iff o skb _ _).mpr ⟨s, p, n, rfl, hacc, rfl⟩))
    · exact .inr (.inr hacc)
  · intro h r hmem
    obtain ⟨s, p, n, rfl, hacc, _⟩ := (submit_iff o skb slot r).mp hmem
    rcases h with h | h | h
    · exact h
    · exact absurd h (by simp)
    · exact absurd ⟨p, n, hacc⟩ h

/-- An IPv4 packet that is the second fragment of a UDP datagram; its data, from
the middle of the datagram, has the bytes of a UDP header and a response. -/
def fragmentExample : Skb :=
  ⟨List.replicate 12 0 ++ [0x08, 0x00] ++
    [0x45, 0, 0, 40, 0, 1, 0, 185, 64, 17] ++ List.replicate 10 0 ++
    udpExample.bytes ++ dnsExample, by decide⟩

theorem fragmentExample_accepted : Accepted fragmentExample.bytes 42 12 :=
  { headers := .udp (b := 0x45) rfl (by decide) rfl rfl
    inside := by decide
    length_eq := by decide
    min := Nat.le_refl 12
    max := by decide
    response := dnsExample_isDnsResponse }

/-- A fragment without a transport header is submitted. -/
theorem fragment_submitted :
    ∃ r, .submit r ∈ (tcDnsObserver .little fragmentExample (some (Record.zero dnsEventT))).ring ∧
      ¬ IsIpv4 fragmentExample.bytes := by
  refine ⟨_, (submit_iff _ _ _ _).mpr ⟨_, 42, 12, rfl, fragmentExample_accepted, rfl⟩, ?_⟩
  intro h
  have hread : readAt fragmentExample.bytes 20 2 = [0, 185] := rfl
  have hfrag := h.fragment
  rw [hread] at hfrag
  exact absurd hfrag (by decide)

end AiInterceptor.Theorems.FrameSafety
