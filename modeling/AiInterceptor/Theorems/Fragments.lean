import AiInterceptor.Theorems.ClientHello

/-!
# ClientHello messages in several records

TLS lets a handshake message be cut into records anywhere. `extractSNI` reads one
record and looks no further: if that is the whole message it finds the host in it, and
if it is not, the length in the handshake header says so and there is no host
(`fragments_host`).
-/

namespace AiInterceptor.Theorems.Fragments

open Lib Go Proxy ClientHello

/-! ## Messages and records -/

/-- The handshake header of a ClientHello with a body of `n` bytes. -/
def header (n : Nat) : List UInt8 :=
  [tlsHandshakeClientHello, UInt8.ofNat (n / 65536), UInt8.ofNat (n / 256), UInt8.ofNat n]

/-- A ClientHello message; its body may be anything a three-byte length can count. -/
structure Message where
  body : List UInt8
  fits : body.length < 16777216

def Message.bytes (m : Message) : List UInt8 := header m.body.length ++ m.body

/-- A handshake record that carries a part of a message. -/
structure Fragment where
  version : List UInt8
  data : List UInt8
  version_length : version.length = 2
  nonempty : data ≠ []
  fits : data.length < 65536

def Fragment.record (f : Fragment) : List UInt8 :=
  tlsRecordHandshake :: (f.version ++ be16 f.data.length ++ f.data)

/-- The records carry the message, part by part. -/
def Carry (fs : List Fragment) (m : Message) : Prop := fs.flatMap Fragment.data = m.bytes

/-! ## One record -/

theorem recordHost_whole (m : Message) : recordHost m.bytes = parseSNI m.body := by
  rw [Message.bytes, header, recordHost_header m.fits, if_neg (Nat.lt_irrefl _), List.take_length]

/-- A part of the message that does not reach its end has no host. -/
theorem recordHost_part (m : Message) {data rest : List UInt8} (hm : m.bytes = data ++ rest)
    (hrest : rest ≠ []) : recordHost data = some [] := by
  by_cases hlen : data.length < tlsHandshakeHdrLen
  · rw [recordHost, if_pos hlen]
  · have hfour : 4 ≤ data.length := Nat.le_of_not_lt hlen
    have hhead : data.take 4 = header m.body.length := by
      rw [← List.take_append_of_le_length hfour, ← hm]
      rfl
    have hbody : m.body = data.drop 4 ++ rest := by
      rw [← List.drop_append_of_le_length hfour, ← hm]
      rfl
    have hshort : (data.drop 4).length < m.body.length := by
      have hpos := List.length_pos_of_ne_nil hrest
      rw [hbody, List.length_append]
      omega
    rw [← List.take_append_drop 4 data, hhead, header, recordHost_header m.fits, if_pos hshort]

/-! ## Several records -/

/-- What the handler sees of a stream of records: the first. -/
theorem first_record {f : Fragment} {fs : List Fragment} {host : GoString}
    (hhost : recordHost f.data = some host) {conn : Conn} {more : List UInt8}
    (hclean : conn.Clean) (hconn : conn.bytes = (f :: fs).flatMap Fragment.record ++ more) :
    ∃ conn' rest, conn.readFull 1 [] = (([tlsRecordHandshake], none), conn') ∧
      extractSNI conn' tlsRecordHandshake = (some ⟨host, f.record, none⟩, rest) ∧
      rest.bytes = fs.flatMap Fragment.record ++ more := by
  rw [List.flatMap_cons, List.append_assoc] at hconn
  obtain ⟨conn', hfirst, htail, hclean'⟩ :=
    @Source.readFull_clean UInt8 1 [] conn hclean (by rw [hconn, Fragment.record]; simp)
  have hone : conn.bytes.take 1 = [tlsRecordHandshake] := by
    rw [hconn]
    rfl
  rw [hone, List.nil_append] at hfirst
  have hbytes : conn'.bytes = f.version ++ be16 f.data.length ++ f.data ++
      (fs.flatMap Fragment.record ++ more) := by
    rw [htail, hconn]
    rfl
  obtain ⟨rest, hsni, hrest⟩ :=
    extractSNI_payload f.version_length f.fits hhost hclean' hbytes tlsRecordHandshake
  exact ⟨conn', rest, hfirst, hsni, hrest⟩

/-- A message in more than one record: the first is not all of it. -/
theorem Carry.part {f g : Fragment} {fs : List Fragment} {m : Message}
    (h : Carry (f :: g :: fs) m) : recordHost f.data = some [] := by
  refine @recordHost_part m f.data ((g :: fs).flatMap Fragment.data) ?_ ?_
  · rw [← h, List.flatMap_cons]
  · rw [List.flatMap_cons]
    simp [g.nonempty]

theorem handle_fragments {f g : Fragment} {fs : List Fragment} {m : Message}
    (h : Carry (f :: g :: fs) m) (lowerRune : Nat → Nat) {conn : Conn} {more : List UInt8}
    (hclean : conn.Clean)
    (hconn : conn.bytes = (f :: g :: fs).flatMap Fragment.record ++ more) :
    ∃ conn' rest, conn.readFull 1 [] = (([tlsRecordHandshake], none), conn') ∧
      extractSNI conn' tlsRecordHandshake = (some ⟨[], f.record, none⟩, rest) ∧
      handle lowerRune conn = (.closed, rest) := by
  obtain ⟨conn', rest, hfirst, hsni, _⟩ := first_record h.part hclean hconn
  refine ⟨conn', rest, hfirst, hsni, ?_⟩
  rw [handle_eq hfirst, if_pos rfl, hsni]
  rfl

/-- In one record, every message gives the host that `parseSNI` finds in it. In more than
one, none does: there is no error and no host, and the connection is closed. -/
theorem fragments_host (lowerRune : Nat → Nat) (m : Message) (fs : List Fragment)
    (hcarry : Carry fs m) (conn : Conn) (more : List UInt8) (hclean : conn.Clean)
    (hconn : conn.bytes = fs.flatMap Fragment.record ++ more) :
    ∃ conn' rest x, conn.readFull 1 [] = (([tlsRecordHandshake], none), conn') ∧
      extractSNI conn' tlsRecordHandshake = (some x, rest) ∧ x.err = none ∧
      (fs.length = 1 → parseSNI m.body = some x.host) ∧
      (2 ≤ fs.length → x.host = [] ∧ handle lowerRune conn = (.closed, rest)) := by
  rcases fs with _ | ⟨f, _ | ⟨g, fs⟩⟩
  · cases hcarry
  -- one record holds the whole message
  · have hdata : f.data = m.bytes := by
      rw [← hcarry, List.flatMap_singleton]
    obtain ⟨host, hhost⟩ := parseSNI_isSome m.body
    have hrecord : recordHost f.data = some host := by rw [hdata, recordHost_whole, hhost]
    obtain ⟨conn', rest, hfirst, hsni, _⟩ := first_record hrecord hclean hconn
    refine ⟨conn', rest, _, hfirst, hsni, rfl, fun _ => hhost, ?_⟩
    intro htwo
    simp at htwo
  -- the message goes on in the second record, which is never read
  · obtain ⟨conn', rest, hfirst, hsni, hclosed⟩ := handle_fragments hcarry lowerRune hclean hconn
    refine ⟨conn', rest, _, hfirst, hsni, rfl, ?_, fun _ => ⟨rfl, hclosed⟩⟩
    intro hone
    simp at hone

/-! ## A message cut in two -/

def sampleMessage : Message := ⟨sampleHello.body, by decide⟩

/-- The header and one byte of the body. -/
def firstPart : Fragment :=
  ⟨sampleRecord.version, sampleMessage.bytes.take 5, sampleRecord.version_length, by decide,
    by decide⟩

def secondPart : Fragment :=
  ⟨sampleRecord.version, sampleMessage.bytes.drop 5, sampleRecord.version_length, by decide,
    by decide⟩

theorem sample_carried : Carry [firstPart, secondPart] sampleMessage := by
  show firstPart.data ++ (secondPart.data ++ []) = sampleMessage.bytes
  rw [List.append_nil]
  exact List.take_append_drop 5 _

def cutConn : Conn := [⟨firstPart.record ++ secondPart.record, none⟩]

theorem cutConn_clean : cutConn.Clean := by
  intro c hc
  rw [List.mem_singleton.mp hc]

theorem cutConn_bytes :
    cutConn.bytes = [firstPart, secondPart].flatMap Fragment.record ++ [] := by
  simp [cutConn]

theorem fragments_host_cut : ∃ rest, handle id cutConn = (.closed, rest) := by
  obtain ⟨_, rest, _, _, _, _, _, htwo⟩ := fragments_host id sampleMessage [firstPart, secondPart]
    sample_carried cutConn [] cutConn_clean cutConn_bytes
  exact ⟨rest, (htwo (by decide)).2⟩

/-- The same message: dialled in one record, not in two. -/
theorem cut_message_has_no_host :
    sampleRecord.payload = sampleMessage.bytes ∧
      (∃ rest, handle id (oneRecord sampleRecord) =
        (.dial (ascii "a.io:443") sampleRecord.bytes, rest)) ∧
      ∃ rest, handle id cutConn = (.closed, rest) := by
  obtain ⟨rest, hdial⟩ := @oneRecord_dial sampleRecord _ sampleHello_announces (by decide) id
  have htarget : dialTarget (ascii "a.io") httpsPort = ascii "a.io:443" := by decide
  rw [htarget] at hdial
  obtain ⟨_, rest', _, _, hclosed⟩ :=
    handle_fragments sample_carried id cutConn_clean cutConn_bytes
  refine ⟨?_, ⟨rest, hdial⟩, rest', hclosed⟩
  show sampleMessage.bytes ++ [] = _
  exact List.append_nil _

end AiInterceptor.Theorems.Fragments
