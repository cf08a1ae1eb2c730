import AiInterceptor.Logic.Handle
import AiInterceptor.Logic.Sni

/-!
# ClientHello round trip

An encoder for ClientHello messages of every shape, and the proof that
`extractSNI` reads them back: it consumes exactly the record, keeps all of it, and
returns the name of the first server_name extension wherever that stands. The
parser and the encoder meet at positions: the loop over the extensions, started at
the end of any prefix, sees exactly the extensions encoded after it.
-/

namespace AiInterceptor.Theorems.ClientHello

open Lib Go Proxy

/-! ## The encoder -/

/-- A two-byte length field. -/
def be16 (n : Nat) : List UInt8 := ByteOrder.big.put16 (UInt16.ofNat n)

@[simp] theorem be16_length (n : Nat) : (be16 n).length = 2 := ByteOrder.put16_length ..

structure Extension where
  type : UInt16
  data : List UInt8
  fits : data.length < 65536

namespace Extension

def header (e : Extension) : List UInt8 := ByteOrder.big.put16 e.type ++ be16 e.data.length

def encode (e : Extension) : List UInt8 := e.header ++ e.data

@[simp] theorem header_length (e : Extension) : e.header.length = 4 := by
  simp [header]

end Extension

def encodeExtensions (exts : List Extension) : List UInt8 := exts.flatMap Extension.encode

/-- A ClientHello body. `extensions` is `none` when there is no extension block. -/
structure Hello where
  version : List UInt8
  random : List UInt8
  sessionId : List UInt8
  cipherSuites : List UInt8
  compressionMethods : List UInt8
  extensions : Option (List Extension)
  version_length : version.length = 2
  random_length : random.length = 32
  sessionId_fits : sessionId.length < 256
  cipherSuites_fits : cipherSuites.length < 65536
  compressionMethods_fits : compressionMethods.length < 256
  extensions_fit : ∀ exts, extensions = some exts → (encodeExtensions exts).length < 65536

namespace Hello

/-- Everything before the extension block. -/
def front (h : Hello) : List UInt8 :=
  h.version ++ h.random ++ [UInt8.ofNat h.sessionId.length] ++ h.sessionId ++
    be16 h.cipherSuites.length ++ h.cipherSuites ++
    [UInt8.ofNat h.compressionMethods.length] ++ h.compressionMethods

def block (h : Hello) : List UInt8 :=
  match h.extensions with
  | none => []
  | some exts => be16 (encodeExtensions exts).length ++ encodeExtensions exts

def body (h : Hello) : List UInt8 := h.front ++ h.block

end Hello

/-- One TLS record: the ClientHello message and possibly further bytes. -/
structure HelloRecord where
  version : List UInt8
  hello : Hello
  trailing : List UInt8
  version_length : version.length = 2
  fits : 4 + hello.body.length + trailing.length < 65536

namespace HelloRecord

/-- The handshake header: type 1 and a three-byte length. -/
def handshakeHeader (r : HelloRecord) : List UInt8 :=
  [tlsHandshakeClientHello, UInt8.ofNat (r.hello.body.length / 65536),
    UInt8.ofNat (r.hello.body.length / 256), UInt8.ofNat r.hello.body.length]

def payload (r : HelloRecord) : List UInt8 := r.handshakeHeader ++ r.hello.body ++ r.trailing

def bytes (r : HelloRecord) : List UInt8 :=
  tlsRecordHandshake :: (r.version ++ be16 r.payload.length ++ r.payload)

theorem payload_length (r : HelloRecord) :
    r.payload.length = 4 + r.hello.body.length + r.trailing.length := by
  simp [payload, handshakeHeader]
  omega

end HelloRecord

/-- The data of a server_name extension with a single `host_name` entry. -/
def hostNameList (name : GoString) : List UInt8 :=
  be16 (3 + name.length) ++ [0] ++ be16 name.length ++ name

/-- The host a list of extensions announces: the name in the first server_name
extension, which holds a single entry, or nothing without such an extension. -/
def Announces (exts : List Extension) (host : GoString) : Prop :=
  ((∀ e ∈ exts, e.type ≠ tlsExtSNI) ∧ host = []) ∨
    ∃ before e after, exts = before ++ e :: after ∧ (∀ x ∈ before, x.type ≠ tlsExtSNI) ∧
      e.type = tlsExtSNI ∧ e.data = hostNameList host

def Hello.Announces (h : Hello) (host : GoString) : Prop :=
  match h.extensions with
  | none => host = []
  | some exts => ClientHello.Announces exts host

/-! ## Reading at a position -/

theorem index_at (pre post : List UInt8) (b : UInt8) :
    index (pre ++ [b] ++ post) pre.length = some b := by
  simp [index]

theorem uint16At_at (pre post : List UInt8) (v : UInt16) :
    uint16At (pre ++ ByteOrder.big.put16 v ++ post) pre.length = some v := by
  have hslice := slice_append pre (ByteOrder.big.put16 v) post
  rw [ByteOrder.put16_length] at hslice
  rw [uint16At, hslice, Option.map_some, ByteOrder.get16_put16]

/-! ## The loop over the extensions -/

section Loop

variable {pre post : List UInt8} {e : Extension}

/-- The header of the extension at the current position. -/
theorem header_at :
    uint16At (pre ++ e.encode ++ post) pre.length = some e.type ∧
      uint16At (pre ++ e.encode ++ post) (pre.length + 2) = some (UInt16.ofNat e.data.length) := by
  constructor
  · have h := uint16At_at pre (be16 e.data.length ++ e.data ++ post) e.type
    simpa [Extension.encode, Extension.header] using h
  · have h := uint16At_at (pre ++ ByteOrder.big.put16 e.type) (e.data ++ post)
      (UInt16.ofNat e.data.length)
    simpa [Extension.encode, Extension.header, be16] using h

/-- One turn of the loop on an encoded extension. -/
theorem extensionLoop_turn :
    extensionLoop (pre ++ e.encode ++ post) (pre ++ e.encode ++ post).length pre.length =
      match serverName (pre ++ e.encode ++ post) e.type (pre.length + 4) e.data.length with
      | none => none
      | some (some name) => some name
      | some none => extensionLoop (pre ++ e.encode ++ post) (pre ++ e.encode ++ post).length
          (pre ++ e.encode).length := by
  obtain ⟨htype, hlen⟩ := @header_at pre post e
  have hsize : (pre ++ e.encode ++ post).length =
      pre.length + (4 + e.data.length) + post.length := by
    simp [Extension.encode]
    omega
  have hnext : (pre ++ e.encode).length = pre.length + tlsExtHdrLen + e.data.length := by
    rw [List.length_append, Extension.encode, List.length_append, Extension.header_length]
    show _ = pre.length + 4 + e.data.length
    omega
  -- the header fits, and so does the data it announces
  rw [extensionLoop, dif_pos (by rw [hsize]; show pre.length + 4 ≤ _; omega), htype, hlen]
  simp only [UInt16.toNat_ofNat_of_lt' e.fits, hnext]
  rw [if_neg (by rw [hsize]; show ¬ _ < pre.length + 4 + e.data.length; omega)]
  rfl

theorem extensionLoop_skip (h : e.type ≠ tlsExtSNI) :
    extensionLoop (pre ++ e.encode ++ post) (pre ++ e.encode ++ post).length pre.length =
      extensionLoop (pre ++ e.encode ++ post) (pre ++ e.encode ++ post).length
        (pre ++ e.encode).length := by
  rw [extensionLoop_turn, serverName, if_neg (fun hsni => h hsni.1)]

theorem serverName_single {host : GoString} (htype : e.type = tlsExtSNI)
    (hdata : e.data = hostNameList host) :
    serverName (pre ++ e.encode ++ post) e.type (pre.length + 4) e.data.length =
      some (some host) := by
  have hext : slice (pre ++ e.encode ++ post) (pre.length + 4)
      (pre.length + 4 + e.data.length) = some e.data := by
    have h := slice_append (pre ++ e.header) e.data post
    simpa [Extension.encode] using h
  have hsize : e.data.length = 5 + host.length := by
    rw [hdata]
    simp [hostNameList]
    omega
  have hfits : host.length < 65536 := by
    have := e.fits
    omega
  -- the offsets the source reads at, past the list's length and the name's type
  have hname : uint16At e.data sniNameLenOffset = some (UInt16.ofNat host.length) := by
    rw [hdata]
    have h := uint16At_at (be16 (3 + host.length) ++ [0]) host (UInt16.ofNat host.length)
    simpa [hostNameList, be16, sniNameLenOffset] using h
  have hslice : slice e.data sniNameOffset (sniNameOffset + host.length) = some host := by
    rw [hdata]
    have h := slice_append (be16 (3 + host.length) ++ [0] ++ be16 host.length) host []
    simpa [hostNameList, sniNameOffset] using h
  rw [serverName, if_pos ⟨htype, by rw [hsize]; exact Nat.le_add_right 5 _⟩, hext]
  simp only [Option.bind_eq_bind, Option.bind_some, hname, UInt16.toNat_ofNat_of_lt' hfits, hslice]
  rw [if_pos (by rw [hsize]; exact le_refl _)]
  rfl

end Loop

/-- The loop, started where the extensions start, returns the announced host. -/
theorem extensionLoop_announces {exts : List Extension} {host : GoString}
    (h : Announces exts host) (pre : List UInt8) :
    extensionLoop (pre ++ encodeExtensions exts) (pre ++ encodeExtensions exts).length
      pre.length = some host := by
  induction exts generalizing pre with
  | nil =>
      have hhost : host = [] := by
        rcases h with ⟨_, h⟩ | ⟨before, e, after, h, _⟩
        · exact h
        · simp at h
      rw [extensionLoop, dif_neg, hhost]
      rw [encodeExtensions, List.flatMap_nil, List.append_nil]
      show ¬ pre.length + 4 ≤ pre.length
      omega
  | cons e rest ih =>
      have hsplit : pre ++ encodeExtensions (e :: rest) =
          pre ++ e.encode ++ encodeExtensions rest := by
        rw [encodeExtensions, List.flatMap_cons, List.append_assoc]
        rfl
      by_cases htype : e.type = tlsExtSNI
      · -- the first server_name extension is this one
        have hdata : e.data = hostNameList host := by
          rcases h with ⟨hnone, _⟩ | ⟨before, e', after, hexts, hbefore, _, hdata⟩
          · exact absurd htype (hnone e List.mem_cons_self)
          · cases before with
            | nil =>
                obtain ⟨rfl, _⟩ := List.cons.inj hexts
                exact hdata
            | cons x before =>
                obtain ⟨rfl, _⟩ := List.cons.inj hexts
                exact absurd htype (hbefore e List.mem_cons_self)
        rw [hsplit, extensionLoop_turn, serverName_single htype hdata]
      · have hrest : Announces rest host := by
          rcases h with ⟨hnone, hhost⟩ | ⟨before, e', after, hexts, hbefore, htype', hdata⟩
          · exact Or.inl ⟨fun x hx => hnone x (List.mem_cons_of_mem e hx), hhost⟩
          · cases before with
            | nil =>
                obtain ⟨rfl, _⟩ := List.cons.inj hexts
                exact absurd htype' htype
            | cons x before =>
                obtain ⟨rfl, htail⟩ := List.cons.inj hexts
                exact Or.inr ⟨before, e', after, htail,
                  fun y hy => hbefore y (List.mem_cons_of_mem _ hy), htype', hdata⟩
        rw [hsplit, extensionLoop_skip htype]
        exact ih hrest (pre ++ e.encode)

/-! ## The fields before the extensions -/

namespace Hello

/-- Where the parser stands after each field. -/
theorem front_length (h : Hello) :
    h.front.length = clientHelloRandOffset + (1 + h.sessionId.length) +
      (2 + h.cipherSuites.length) + (1 + h.compressionMethods.length) := by
  simp [front, h.version_length, h.random_length, clientHelloRandOffset]
  omega

theorem sessionId_at (h : Hello) :
    index h.body clientHelloRandOffset = some (UInt8.ofNat h.sessionId.length) := by
  have hat := index_at (h.version ++ h.random)
    (h.sessionId ++ be16 h.cipherSuites.length ++ h.cipherSuites ++
      [UInt8.ofNat h.compressionMethods.length] ++ h.compressionMethods ++ h.block)
    (UInt8.ofNat h.sessionId.length)
  have hpos : (h.version ++ h.random).length = clientHelloRandOffset := by
    rw [List.length_append, h.version_length, h.random_length]
    rfl
  rw [hpos] at hat
  simpa [body, front] using hat

theorem cipherSuites_at (h : Hello) :
    uint16At h.body (clientHelloRandOffset + (1 + h.sessionId.length)) =
      some (UInt16.ofNat h.cipherSuites.length) := by
  have hat := uint16At_at
    (h.version ++ h.random ++ [UInt8.ofNat h.sessionId.length] ++ h.sessionId)
    (h.cipherSuites ++ [UInt8.ofNat h.compressionMethods.length] ++ h.compressionMethods ++
      h.block) (UInt16.ofNat h.cipherSuites.length)
  have hpos : (h.version ++ h.random ++ [UInt8.ofNat h.sessionId.length] ++ h.sessionId).length =
      clientHelloRandOffset + (1 + h.sessionId.length) := by
    simp [h.version_length, h.random_length, clientHelloRandOffset]
    omega
  rw [hpos] at hat
  simpa [body, front, be16] using hat

theorem compressionMethods_at (h : Hello) :
    index h.body (clientHelloRandOffset + (1 + h.sessionId.length) +
      (2 + h.cipherSuites.length)) = some (UInt8.ofNat h.compressionMethods.length) := by
  have hat := index_at
    (h.version ++ h.random ++ [UInt8.ofNat h.sessionId.length] ++ h.sessionId ++
      be16 h.cipherSuites.length ++ h.cipherSuites)
    (h.compressionMethods ++ h.block) (UInt8.ofNat h.compressionMethods.length)
  have hpos : (h.version ++ h.random ++ [UInt8.ofNat h.sessionId.length] ++ h.sessionId ++
      be16 h.cipherSuites.length ++ h.cipherSuites).length =
      clientHelloRandOffset + (1 + h.sessionId.length) + (2 + h.cipherSuites.length) := by
    simp [h.version_length, h.random_length, clientHelloRandOffset]
    omega
  rw [hpos] at hat
  simpa [body, front] using hat

theorem body_length (h : Hello) :
    h.body.length = clientHelloRandOffset + (1 + h.sessionId.length) +
      (2 + h.cipherSuites.length) + (1 + h.compressionMethods.length) + h.block.length := by
  rw [body, List.length_append, h.front_length]

end Hello

/-- The parser gets past the fixed part of every hello to the extension block. -/
theorem parseSNI_front (h : Hello) :
    parseSNI h.body =
      if h.body.length < h.front.length + 2 then some []
      else (uint16At h.body h.front.length).bind fun extTotal =>
        extensionLoop h.body (min (h.front.length + 2 + extTotal.toNat) h.body.length)
          (h.front.length + 2) := by
  have hlen := h.body_length
  have hoff : clientHelloRandOffset = 34 := rfl
  have hmin : clientHelloMinLen = 35 := rfl
  have hfits := And.intro h.sessionId_fits (And.intro h.cipherSuites_fits h.compressionMethods_fits)
  rw [parseSNI, if_neg (by omega), if_neg (by omega), h.sessionId_at]
  simp only [Option.bind_eq_bind, Option.bind_some, UInt8.toNat_ofNat_of_lt' hfits.1]
  rw [if_neg (by omega), h.cipherSuites_at]
  simp only [Option.bind_some, UInt16.toNat_ofNat_of_lt' hfits.2.1]
  rw [if_neg (by omega), h.compressionMethods_at]
  simp only [Option.bind_some, UInt8.toNat_ofNat_of_lt' hfits.2.2, ← h.front_length]
  rfl

theorem parseSNI_body {h : Hello} {host : GoString} (ha : h.Announces host) :
    parseSNI h.body = some host := by
  rw [parseSNI_front]
  unfold Hello.Announces at ha
  cases hext : h.extensions with
  | none =>
      rw [hext] at ha
      have hblock : h.block = [] := by
        rw [Hello.block, hext]
      rw [if_pos, ha]
      -- the source stops where the extensions would start
      rw [Hello.body, hblock, List.append_nil]
      omega
  | some exts =>
      rw [hext] at ha
      have hblock : h.block = be16 (encodeExtensions exts).length ++ encodeExtensions exts := by
        rw [Hello.block, hext]
      have hbody : h.body = h.front ++ be16 (encodeExtensions exts).length ++
          encodeExtensions exts := by
        rw [Hello.body, hblock, List.append_assoc]
      have hpre : (h.front ++ be16 (encodeExtensions exts).length).length =
          h.front.length + 2 := by
        rw [List.length_append, be16_length]
      have htotal : uint16At h.body h.front.length =
          some (UInt16.ofNat (encodeExtensions exts).length) := by
        rw [hbody]
        exact uint16At_at ..
      have hloop := extensionLoop_announces ha
        (h.front ++ be16 (encodeExtensions exts).length)
      rw [← hbody, hpre] at hloop
      have hsize : h.body.length = h.front.length + 2 + (encodeExtensions exts).length := by
        rw [hbody, List.length_append, hpre]
      rw [if_neg (by omega), htotal]
      show extensionLoop h.body (min (h.front.length + 2 +
        (UInt16.ofNat (encodeExtensions exts).length).toNat) h.body.length) _ = _
      rw [UInt16.toNat_ofNat_of_lt' (h.extensions_fit exts hext), ← hsize, min_self]
      exact hloop

/-! ## The record -/

/-- The three length bytes of the handshake header. -/
theorem handshakeLength {n : Nat} (h : n < 16777216) :
    (UInt8.ofNat (n / 65536)).toNat <<< 16 ||| (UInt8.ofNat (n / 256)).toNat <<< 8 |||
      (UInt8.ofNat n).toNat = n := by
  have hhigh : (UInt8.ofNat (n / 65536)).toNat = n / 65536 :=
    UInt8.toNat_ofNat_of_lt' (show n / 65536 < 256 by omega)
  have hmid : (UInt8.ofNat (n / 256)).toNat = n / 256 % 256 := UInt8.toNat_ofNat'
  have hlow : (UInt8.ofNat n).toNat = n % 256 := UInt8.toNat_ofNat'
  have hmid_lt : (n / 256 % 256) <<< 8 < 2 ^ 16 := by
    rw [Nat.shiftLeft_eq]
    omega
  have hsum : (n / 65536) <<< 16 + (n / 256 % 256) <<< 8 =
      (n / 65536 * 256 + n / 256 % 256) <<< 8 := by
    rw [Nat.shiftLeft_eq, Nat.shiftLeft_eq, Nat.shiftLeft_eq]
    omega
  rw [hhigh, hmid, hlow, ← Nat.shiftLeft_add_eq_or_of_lt hmid_lt, hsum,
    ← Nat.shiftLeft_add_eq_or_of_lt (by omega), Nat.shiftLeft_eq]
  omega

/-- A record that starts with a ClientHello header holds the message if it is long
enough. -/
theorem recordHost_header {n : Nat} (hn : n < 16777216) (data : List UInt8) :
    recordHost ([tlsHandshakeClientHello, UInt8.ofNat (n / 65536), UInt8.ofNat (n / 256),
        UInt8.ofNat n] ++ data) =
      if data.length < n then some [] else parseSNI (data.take n) := by
  have hhdr : tlsHandshakeHdrLen = 4 := rfl
  rw [recordHost, if_neg (by simp [hhdr])]
  simp only [index, List.cons_append, List.nil_append, List.getElem?_cons_zero,
    List.getElem?_cons_succ, Option.bind_eq_bind, Option.bind_some, handshakeLength hn]
  rw [if_neg (fun h => h rfl)]
  by_cases hshort : data.length < n
  · rw [if_pos hshort, if_pos (by simp only [List.length_cons]; omega)]
    rfl
  · rw [if_neg hshort, if_neg (by simp only [List.length_cons]; omega)]
    rw [slice_eq_some (by omega) (by simp only [List.length_cons]; omega), Option.bind_some,
      Nat.add_sub_cancel_left]
    rfl

theorem recordHost_payload {r : HelloRecord} {host : GoString} (ha : r.hello.Announces host) :
    recordHost r.payload = some host := by
  have hfits := r.fits
  have hpayload : r.payload = r.handshakeHeader ++ (r.hello.body ++ r.trailing) :=
    List.append_assoc ..
  rw [hpayload, HelloRecord.handshakeHeader, recordHost_header (by omega), if_neg (by simp),
    List.take_left]
  exact parseSNI_body ha

/-- From any connection that carries the rest of a record, however it is cut into
reads, `extractSNI` consumes exactly the record and returns all its bytes. -/
theorem extractSNI_payload {version payload more : List UInt8} {host : GoString}
    (hversion : version.length = 2) (hfits : payload.length < 65536)
    (hhost : recordHost payload = some host) {conn : Conn} (hclean : conn.Clean)
    (hconn : conn.bytes = version ++ be16 payload.length ++ payload ++ more) (b : UInt8) :
    ∃ rest, extractSNI conn b =
        (some ⟨host, b :: (version ++ be16 payload.length ++ payload), none⟩, rest) ∧
      rest.bytes = more := by
  have hhdr : (version ++ be16 payload.length).length = tlsRecordHdrTail := by
    rw [List.length_append, hversion, be16_length]
    rfl
  rw [List.append_assoc] at hconn
  obtain ⟨conn₁, hread₁, hrest₁, hclean₁⟩ :=
    @Source.readFull_clean UInt8 tlsRecordHdrTail [] conn hclean
      (by rw [hconn, List.length_append, hhdr]; omega)
  rw [hconn, ← hhdr, List.take_left, List.nil_append, hhdr] at hread₁
  rw [hconn, ← hhdr, List.drop_left] at hrest₁
  -- the second read asks for the length the header gives
  have hrecLen : uint16At (version ++ be16 payload.length) tlsRecordLenOffset =
      some (UInt16.ofNat payload.length) := by
    have hat := uint16At_at version [] (UInt16.ofNat payload.length)
    rw [hversion, List.append_nil] at hat
    exact hat
  have hlen : (UInt16.ofNat payload.length).toNat = payload.length :=
    UInt16.toNat_ofNat_of_lt' hfits
  obtain ⟨conn₂, hread₂, hrest₂, _⟩ :=
    @Source.readFull_clean UInt8 payload.length [] conn₁ hclean₁
      (by rw [hrest₁, List.length_append]; omega)
  rw [hrest₁, List.take_left, List.nil_append] at hread₂
  rw [hrest₁, List.drop_left] at hrest₂
  refine ⟨conn₂, ?_, hrest₂⟩
  simp only [extractSNI, hread₁, hrecLen, hlen, hread₂, hhost, Option.map_some]
  rfl

theorem extractSNI_record {r : HelloRecord} {host : GoString}
    (hhost : recordHost r.payload = some host) {conn : Conn} {more : List UInt8}
    (hclean : conn.Clean) (hconn : conn.bytes = r.bytes.tail ++ more) :
    ∃ rest, extractSNI conn tlsRecordHandshake = (some ⟨host, r.bytes, none⟩, rest) ∧
      rest.bytes = more := by
  have hfits := r.fits
  have hpay := r.payload_length
  exact extractSNI_payload r.version_length (by omega) hhost hclean hconn tlsRecordHandshake

/-- `extractSNI` consumes exactly the record `r`, returns its bytes, and `host`. -/
def ReadsAs (conn : Conn) (r : HelloRecord) (more : List UInt8) (host : GoString) : Prop :=
  ∃ rest, extractSNI conn tlsRecordHandshake = (some ⟨host, r.bytes, none⟩, rest) ∧
    rest.bytes = more

/-- The round trip, for every record and every way its bytes arrive: the record
is consumed and returned whole; the host is the name in the first server_name
extension when that holds a single entry, and empty without such an extension or
without an extension block. -/
theorem clientHello_round_trip (r : HelloRecord) (conn : Conn) (more : List UInt8)
    (hclean : conn.Clean) (hconn : conn.bytes = r.bytes.tail ++ more) :
    (∃ host, ReadsAs conn r more host) ∧
      (∀ before e after name, r.hello.extensions = some (before ++ e :: after) →
        (∀ x ∈ before, x.type ≠ tlsExtSNI) → e.type = tlsExtSNI →
        e.data = hostNameList name → ReadsAs conn r more name) ∧
      ((∀ exts, r.hello.extensions = some exts → ∀ e ∈ exts, e.type ≠ tlsExtSNI) →
        ReadsAs conn r more []) := by
  have hreads : ∀ host, r.hello.Announces host → ReadsAs conn r more host :=
    fun host ha => extractSNI_record (recordHost_payload ha) hclean hconn
  refine ⟨?_, ?_, ?_⟩
  · obtain ⟨host, hhost⟩ := recordHost_isSome r.payload
    exact ⟨host, extractSNI_record hhost hclean hconn⟩
  · intro before e after name hexts hbefore htype hdata
    refine hreads name ?_
    unfold Hello.Announces
    rw [hexts]
    exact Or.inr ⟨before, e, after, rfl, hbefore, htype, hdata⟩
  · intro hnone
    refine hreads [] ?_
    unfold Hello.Announces
    cases hexts : r.hello.extensions with
    | none => rfl
    | some exts => exact Or.inl ⟨hnone exts hexts, rfl⟩

/-- The handler on a connection that starts with a ClientHello which announces a
host: it dials that host. -/
theorem handle_hello {r : HelloRecord} {host : GoString} (ha : r.hello.Announces host)
    (hne : host ≠ []) (lowerRune : Nat → Nat) {conn : Conn} {more : List UInt8}
    (hclean : conn.Clean) (hconn : conn.bytes = r.bytes ++ more) :
    ∃ rest, handle lowerRune conn = (.dial (dialTarget host httpsPort) r.bytes, rest) ∧
      rest.bytes = more := by
  obtain ⟨conn', hfirst, hrest, hclean'⟩ :=
    @Source.readFull_clean UInt8 1 [] conn hclean (by rw [hconn, HelloRecord.bytes]; simp)
  have hone : conn.bytes.take 1 = [tlsRecordHandshake] := by
    rw [hconn]
    rfl
  have htail : conn'.bytes = r.bytes.tail ++ more := by
    rw [hrest, hconn]
    rfl
  rw [hone, List.nil_append] at hfirst
  obtain ⟨rest, hsni, hmore⟩ := extractSNI_record (recordHost_payload ha) hclean' htail
  refine ⟨rest, ?_, hmore⟩
  rw [handle_eq hfirst, if_pos rfl, hsni, finish, if_neg (by simp [hne])]

/-- A connection on which a record arrives in one piece. -/
def oneRecord (r : HelloRecord) : Conn := [⟨r.bytes, none⟩]

theorem oneRecord_dial {r : HelloRecord} {host : GoString}
    (ha : r.hello.Announces host) (hne : host ≠ []) (lowerRune : Nat → Nat) :
    ∃ rest, handle lowerRune (oneRecord r) = (.dial (dialTarget host httpsPort) r.bytes, rest) := by
  have hclean : (oneRecord r).Clean := by
    intro c hc
    rw [List.mem_singleton.mp hc]
  have hbytes : (oneRecord r).bytes = r.bytes ++ [] := rfl
  obtain ⟨rest, hdial, _⟩ := handle_hello ha hne lowerRune hclean hbytes
  exact ⟨rest, hdial⟩

/-- A TLS 1.2 hello with an empty extension before the server name. -/
def sampleHello : Hello where
  version := [3, 3]
  random := List.replicate 32 7
  sessionId := []
  cipherSuites := [0x13, 0x01]
  compressionMethods := [0]
  extensions := some [⟨23, [], by decide⟩, ⟨0, hostNameList (ascii "a.io"), by decide⟩]
  version_length := rfl
  random_length := rfl
  sessionId_fits := by decide
  cipherSuites_fits := by decide
  compressionMethods_fits := by decide
  extensions_fit := by
    intro exts h
    obtain rfl := Option.some.inj h
    decide

theorem sampleHello_announces : sampleHello.Announces (ascii "a.io") := by
  refine Or.inr ⟨[⟨23, [], by decide⟩], ⟨0, hostNameList (ascii "a.io"), by decide⟩, [], rfl, ?_,
    rfl, rfl⟩
  intro x hx
  obtain rfl := List.mem_singleton.mp hx
  decide

def sampleRecord : HelloRecord := ⟨[3, 1], sampleHello, [], rfl, by decide⟩

/-- The record after its first byte, in two reads, with a byte of the next one. -/
def sampleConn : Conn :=
  [⟨sampleRecord.bytes.tail.take 7, none⟩, ⟨sampleRecord.bytes.tail.drop 7 ++ [0x17], none⟩]

theorem sampleConn_clean : sampleConn.Clean := by
  intro c hc
  simp only [sampleConn, List.mem_cons, List.not_mem_nil, or_false] at hc
  rcases hc with rfl | rfl
  · rfl
  · rfl

theorem sampleConn_bytes : sampleConn.bytes = sampleRecord.bytes.tail ++ [0x17] := by
  rw [sampleConn, Source.bytes_cons, Source.bytes_cons, Source.bytes_nil, List.append_nil,
    ← List.append_assoc, List.take_append_drop]

theorem clientHello_round_trip_sample :
    ReadsAs sampleConn sampleRecord [0x17] (ascii "a.io") := by
  obtain ⟨_, hname, _⟩ :=
    clientHello_round_trip sampleRecord sampleConn [0x17] sampleConn_clean sampleConn_bytes
  refine hname [⟨23, [], by decide⟩] ⟨0, hostNameList (ascii "a.io"), by decide⟩ [] _ rfl ?_ rfl rfl
  intro x hx
  obtain rfl := List.mem_singleton.mp hx
  decide

end AiInterceptor.Theorems.ClientHello
