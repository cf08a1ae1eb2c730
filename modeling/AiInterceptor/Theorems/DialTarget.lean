import AiInterceptor.Go.Net
import AiInterceptor.Logic.HostPort
import AiInterceptor.Theorems.ClientHello
import AiInterceptor.Theorems.RequestHead

/-!
# The address that is dialled

The handler takes an error of `SplitHostPort` for a missing port, and lets
`JoinHostPort` add one. A server name with a port of its own keeps it; every other
one is dialled at port 443 (`tls_target`). A Host value is split or joined right in
every form but one: to a bracketed literal without a port the brackets are added once
more, and no address comes of it (`host_target_iff`).
-/

namespace AiInterceptor.Theorems.DialTarget

open Lib Go Proxy ClientHello HostHeader RequestHead

theorem dialTarget_split {host port p : GoString} (h : splitHostPort host = .ok (p, port))
    (upstreamPort : GoString) : dialTarget host upstreamPort = host := by
  rw [dialTarget, h]

theorem dialTarget_join {host : GoString} {e : AddrError} (h : splitHostPort host = .error e)
    (upstreamPort : GoString) : dialTarget host upstreamPort = joinHostPort host upstreamPort := by
  rw [dialTarget, h]

theorem httpsPort_plain : Unbracketed httpsPort ∧ colon ∉ httpsPort :=
  ⟨⟨by decide, by decide⟩, by decide⟩

theorem httpPort_plain : Unbracketed httpPort ∧ colon ∉ httpPort :=
  ⟨⟨by decide, by decide⟩, by decide⟩

/-! ## Server names -/

/-- What the TLS branch dials for the server name `sni`. A name that carries a port is
dialled as it is. For any other the port is 443 if the target is an address at all, and
the host is the name, in its own brackets or not; and it is an address if the name has
no bracket. -/
structure TlsTarget (sni target : GoString) : Prop where
  carried : ∀ host port, splitHostPort sni = .ok (host, port) →
    splitHostPort target = .ok (host, port)
  added : ∀ e host port, splitHostPort sni = .error e → splitHostPort target = .ok (host, port) →
    port = httpsPort ∧ (host = sni ∨ openBracket :: (host ++ [closeBracket]) = sni)
  plain : ∀ e, splitHostPort sni = .error e → Unbracketed sni →
    splitHostPort target = .ok (sni, httpsPort)

theorem dialTarget_tls (sni : GoString) : TlsTarget sni (dialTarget sni httpsPort) := by
  refine ⟨?_, ?_, ?_⟩
  · intro host port hok
    rw [dialTarget_split hok, hok]
  · intro e host port herr hok
    rw [dialTarget_join herr] at hok
    exact joinHostPort_split httpsPort_plain.2 hok
  · intro e herr hplain
    rw [dialTarget_join herr]
    exact splitHostPort_joinHostPort hplain httpsPort_plain.1 httpsPort_plain.2

/-- Whatever a stream that starts as TLS makes the handler dial, it is the server name it
carries, with the name's own port or with 443. -/
theorem tls_target (lowerRune : Nat → Nat) (conn rest : Conn) (target : GoString)
    (peeked : List UInt8) (htls : conn.bytes.head? = some tlsRecordHandshake)
    (h : handle lowerRune conn = (.dial target peeked, rest)) :
    ∃ sni conn', conn.readFull 1 [] = (([tlsRecordHandshake], none), conn') ∧
      extractSNI conn' tlsRecordHandshake = (some ⟨sni, peeked, none⟩, rest) ∧
      TlsTarget sni target := by
  obtain ⟨b, conn', x, hfirst, hbytes, herr, _, hpeeked, hbranch⟩ := handle_dial h
  have hb : b = tlsRecordHandshake := by
    rw [hbytes] at htls
    exact Option.some.inj htls
  subst hb
  rcases hbranch with ⟨_, hx, rfl⟩ | ⟨hne, _, _⟩
  · refine ⟨x.host, conn', hfirst, ?_, dialTarget_tls x.host⟩
    rw [hx, ← hpeeked, ← herr]
  · exact absurd rfl hne

theorem tls_target_sample :
    ∃ rest, handle id (oneRecord sampleRecord) =
        (.dial (ascii "a.io:443") sampleRecord.bytes, rest) ∧
      ∃ sni, TlsTarget sni (ascii "a.io:443") := by
  obtain ⟨rest, hdial⟩ := @oneRecord_dial sampleRecord _ sampleHello_announces (by decide) id
  have htarget : dialTarget (ascii "a.io") httpsPort = ascii "a.io:443" := by decide
  rw [htarget] at hdial
  obtain ⟨sni, _, _, _, hsni⟩ := tls_target id (oneRecord sampleRecord) rest
    (ascii "a.io:443") sampleRecord.bytes rfl hdial
  exact ⟨rest, hdial, sni, hsni⟩

/-- A hello whose server name carries a port. -/
def portHello : Hello :=
  { sampleHello with
    extensions := some [⟨0, hostNameList (ascii "a.io:22"), by decide⟩]
    extensions_fit := by
      intro exts h
      obtain rfl := Option.some.inj h
      decide }

def portRecord : HelloRecord :=
  ⟨sampleRecord.version, portHello, [], sampleRecord.version_length, by decide⟩

theorem server_name_selects_port :
    (oneRecord portRecord).bytes.head? = some tlsRecordHandshake ∧
      (∃ rest, handle id (oneRecord portRecord) =
        (.dial (ascii "a.io:22") portRecord.bytes, rest)) ∧
      splitHostPort (ascii "a.io:22") = .ok (ascii "a.io", ascii "22") := by
  have ha : portRecord.hello.Announces (ascii "a.io:22") :=
    Or.inr ⟨[], ⟨0, hostNameList (ascii "a.io:22"), by decide⟩, [], rfl, by simp, rfl, rfl⟩
  obtain ⟨rest, hdial⟩ := oneRecord_dial ha (by decide) id
  have htarget : dialTarget (ascii "a.io:22") httpsPort = ascii "a.io:22" := by decide
  rw [htarget] at hdial
  exact ⟨rfl, ⟨rest, hdial⟩, by decide⟩

/-! ## Host values -/

/-- Neither a bracket nor a colon. -/
def Plain (s : GoString) : Prop := Unbracketed s ∧ colon ∉ s

/-- The forms of a `uri-host`. -/
inductive UriHost
  | regName (name : GoString) (plain : Plain name)
  | ipv4 (ip : Ip4)
  | ipv6 (literal : GoString) (unbracketed : Unbracketed literal) (colons : colon ∈ literal)

namespace UriHost

/-- The host without the brackets of a literal. -/
def name : UriHost → GoString
  | regName name _ => name
  | ipv4 ip => ipString ip
  | ipv6 literal _ _ => literal

/-- The host as it is written. -/
def text : UriHost → GoString
  | regName name _ => name
  | ipv4 ip => ipString ip
  | ipv6 literal _ _ => openBracket :: (literal ++ [closeBracket])

def isLiteral : UriHost → Prop
  | ipv6 .. => True
  | _ => False

end UriHost

def Digits (s : GoString) : Prop := ∀ c ∈ s, 0x30 ≤ c ∧ c ≤ 0x39

/-- A Host value: a host, and a port if one is given. -/
structure HostValue where
  host : UriHost
  port : Option GoString
  digits : ∀ p, port = some p → Digits p

namespace HostValue

def text (v : HostValue) : GoString :=
  v.port.elim v.host.text fun p => v.host.text ++ colon :: p

/-- The port to dial. -/
def dialPort (v : HostValue) : GoString := v.port.getD httpPort

end HostValue

theorem Digits.plain {s : GoString} (h : Digits s) : Plain s := by
  have hnot : ∀ c : UInt8, ¬ (0x30 ≤ c ∧ c ≤ 0x39) → c ∉ s := fun c hc hmem => hc (h c hmem)
  exact ⟨⟨hnot _ (by decide), hnot _ (by decide)⟩, hnot _ (by decide)⟩

theorem decimal_digits (b : UInt8) : Digits (decimal b) := by
  have hall : ∀ b : UInt8, (decimal b).all (fun c => 0x30 ≤ c && c ≤ 0x39) = true := by
    decide +kernel
  intro c hc
  simpa using List.all_eq_true.mp (hall b) c hc

theorem Plain.append {s t : GoString} (hs : Plain s) (ht : Plain t) : Plain (s ++ t) := by
  refine ⟨⟨?_, ?_⟩, ?_⟩
  · simp [hs.1.noOpen, ht.1.noOpen]
  · simp [hs.1.noClose, ht.1.noClose]
  · simp [hs.2, ht.2]

theorem ipString_plain (ip : Ip4) : Plain (ipString ip) := by
  have hdot : Plain (ascii ".") := ⟨⟨by decide, by decide⟩, by decide⟩
  have hdec := fun b => (decimal_digits b).plain
  exact ((((((hdec _).append hdot).append (hdec _)).append hdot).append (hdec _)).append
    hdot).append (hdec _)

/-- A name without brackets and colons, with a port or without. -/
theorem dialTarget_plain {name : GoString} (h : Plain name) (p : Option GoString)
    (hdigits : ∀ q, p = some q → Digits q) :
    splitHostPort (dialTarget (p.elim name fun q => name ++ colon :: q) httpPort) =
      .ok (name, p.getD httpPort) := by
  cases p with
  | none =>
      have herr := splitHostPort_of_noColon h.2
      show splitHostPort (dialTarget name httpPort) = _
      rw [dialTarget_join herr]
      exact splitHostPort_joinHostPort h.1 httpPort_plain.1 httpPort_plain.2
  | some q =>
      have hq := (hdigits q rfl).plain
      have hok := splitHostPort_plain h.1 h.2 hq.1 hq.2
      show splitHostPort (dialTarget (name ++ colon :: q) httpPort) = _
      rw [dialTarget_split hok]
      exact hok

/-- A literal in its brackets, with a port. -/
theorem dialTarget_literal {literal port : GoString} (h : Unbracketed literal)
    (hdigits : Digits port) :
    splitHostPort (dialTarget (openBracket :: (literal ++ [closeBracket]) ++ colon :: port)
      httpPort) = .ok (literal, port) := by
  have hport := hdigits.plain
  have hok : splitHostPort (openBracket :: (literal ++ [closeBracket]) ++ colon :: port) =
      .ok (literal, port) := by
    simpa using splitHostPort_bracketed h hport.1 hport.2
  rw [dialTarget_split hok]
  exact hok

/-- Without one, it gets a second pair of brackets. -/
theorem dialTarget_bare {literal : GoString} (h : Unbracketed literal) (hcolon : colon ∈ literal) :
    splitHostPort (dialTarget (openBracket :: (literal ++ [closeBracket])) httpPort) =
      .error .missingPort := by
  have hmem : colon ∈ openBracket :: (literal ++ [closeBracket]) := by simp [hcolon]
  rw [dialTarget_join (splitHostPort_bare h.noClose), joinHostPort_colons httpPort hmem]
  exact splitHostPort_doubled h.noClose httpPort_plain.2

theorem dialTarget_iff (v : HostValue) :
    splitHostPort (dialTarget v.text httpPort) = .ok (v.host.name, v.dialPort) ↔
      ¬ (v.host.isLiteral ∧ v.port = none) := by
  obtain ⟨host, port, hdigits⟩ := v
  cases host with
  | regName name hplain =>
      exact iff_of_true (dialTarget_plain hplain port hdigits) (fun h => h.1)
  | ipv4 ip =>
      exact iff_of_true (dialTarget_plain (ipString_plain ip) port hdigits) (fun h => h.1)
  | ipv6 literal hplain hcolon =>
      cases port with
      | some p =>
          refine iff_of_true (dialTarget_literal hplain (hdigits p rfl)) ?_
          intro h
          cases h.2
      | none =>
          refine iff_of_false ?_ (fun h => h ⟨trivial, rfl⟩)
          -- the brackets stay on the host and `JoinHostPort` adds its own
          have hbare := dialTarget_bare hplain hcolon
          intro h
          cases hbare.symm.trans h

/-- **A Host value leads to its host and port exactly when it is not empty and not a
bracketed literal without a port.** -/
theorem host_target_iff (lowerRune : Nat → Nat) (v : HostValue) (conn conn' rest : Conn)
    (b : UInt8) (x : Extracted) (hfirst : conn.readFull 1 [] = (([b], none), conn'))
    (hb : b ≠ tlsRecordHandshake) (hx : extractHTTPHost lowerRune conn' b = (some x, rest))
    (hhost : x.host = v.text) :
    (∃ target, handle lowerRune conn = (.dial target x.peeked, rest) ∧
        splitHostPort target = .ok (v.host.name, v.dialPort)) ↔
      v.text ≠ [] ∧ ¬ (v.host.isLiteral ∧ v.port = none) := by
  have hhandle : handle lowerRune conn = finish httpPort (some x, rest) := by
    rw [handle_eq hfirst, if_neg hb, hx]
  rw [hhandle, ← dialTarget_iff, ← hhost]
  by_cases hempty : x.host = []
  · refine iff_of_false ?_ (fun h => h.1 hempty)
    rintro ⟨target, hdial, _⟩
    rw [finish, if_pos (.inr hempty)] at hdial
    cases hdial
  · have herr := extractHTTPHost_err hx hempty
    rw [finish, if_neg (by simp [herr, hempty])]
    constructor
    · rintro ⟨target, hdial, hsplit⟩
      obtain ⟨rfl, _⟩ := Handled.dial.inj (Prod.mk.inj hdial).1
      exact ⟨hempty, hsplit⟩
    · rintro ⟨_, hsplit⟩
      exact ⟨_, rfl, hsplit⟩

/-! ## Two requests -/

/-- A request for `value`, after its first byte. -/
def request (value : GoString) : List UInt8 :=
  ascii "ET / HTTP/1.1" ++ crlf ++ ascii "Host: " ++ value ++ crlf ++ crlf

/-- The handler reads the value of a request that arrives at once. -/
theorem request_extracted {value : GoString} (hline : Line value) (htrim : Trimmed value)
    (hsize : (request value).length ≤ httpReadBufSize)
    (hend : contains (0x47 :: request value) headEnd = true) :
    extractHTTPHost latinLower [⟨request value, none⟩] 0x47 =
      (some ⟨value, 0x47 :: request value, none⟩, []) := by
  have hname : Name (ascii "Host") := by decide
  have hows : Ows (ascii " ") := by decide
  have hhost : (ascii "Host").map lowerByte = ascii "host" := by decide
  let h : Head := ⟨ascii "GET / HTTP/1.1", [],
    ⟨ascii "Host", ascii " ", value, [], hname, hows, hline, htrim, by decide⟩, [],
    by decide +kernel, hhost, by simp⟩
  have hbytes : h.bytes = 0x47 :: request value := by
    simp [h, Head.bytes, Head.fields, Field.line, Field.content, request, ascii, colon]
  apply extractHTTPHost_oneRead hsize hend
  rw [← hbytes, parseHostHeader_ascii h.bytes_ascii]
  exact congrArg some (h.hostField_space rfl)

theorem request_first (value : GoString) :
    Source.readFull 1 [] [⟨0x47 :: request value, none⟩] =
      (([0x47], none), [⟨request value, none⟩]) := by
  have hlong : ¬ (0x47 :: request value).length ≤ 1 := by
    simp [request, crlf]
  rw [Source.readFull_step (by decide) (Source.read_splits [] hlong)]
  rfl

def namedValue : HostValue :=
  ⟨.regName (ascii "a.io") ⟨⟨by decide, by decide⟩, by decide⟩, some (ascii "8080"), by
    intro p hp
    obtain rfl := Option.some.inj hp
    show ∀ c ∈ ascii "8080", _
    decide +kernel⟩

theorem host_target_iff_named :
    ∃ target, handle latinLower [⟨0x47 :: request namedValue.text, none⟩] =
        (.dial target (0x47 :: request namedValue.text), []) ∧
      splitHostPort target = .ok (ascii "a.io", ascii "8080") := by
  have hx := @request_extracted namedValue.text (by decide)
    ⟨by decide +kernel, by decide +kernel⟩ (by decide +kernel) (by decide +kernel)
  exact (host_target_iff latinLower namedValue _ _ _ 0x47 _
    (request_first namedValue.text) (by decide) hx rfl).mpr ⟨by decide, fun h => h.1⟩

/-- The loopback address as a literal without a port. -/
def loopback : HostValue :=
  ⟨.ipv6 (ascii "::1") ⟨by decide, by decide⟩ (by decide), none, by simp⟩

theorem literal_bracketed_twice :
    loopback.text = ascii "[::1]" ∧
      handle latinLower [⟨0x47 :: request loopback.text, none⟩] =
        (.dial (ascii "[[::1]]:80") (0x47 :: request loopback.text), []) ∧
      splitHostPort (ascii "[[::1]]:80") = .error .missingPort := by
  have hx := @request_extracted loopback.text (by decide)
    ⟨by decide +kernel, by decide +kernel⟩ (by decide +kernel) (by decide +kernel)
  have htarget : dialTarget loopback.text httpPort = ascii "[[::1]]:80" := by decide +kernel
  refine ⟨by decide, ?_, by decide +kernel⟩
  rw [handle_eq (request_first loopback.text), if_neg (by decide), hx, finish, if_neg (by decide),
    htarget]

end AiInterceptor.Theorems.DialTarget
