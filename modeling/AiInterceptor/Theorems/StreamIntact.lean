import AiInterceptor.Logic.Handle
import AiInterceptor.Logic.Sni
import AiInterceptor.Theorems.ClientHello

/-!
# The upstream receives the client's stream

Both branches of the handler consume the connection in pieces of different sizes
and give up at different points. Whenever the handler gets as far as the dial,
what it will replay is what it has consumed, byte for byte, so that the replayed
bytes followed by what `io.Copy` reads are the client's stream.
-/

namespace AiInterceptor.Theorems.StreamIntact

open Lib Go Proxy

/-! ## The TLS branch -/

/-- A record that was read whole is peeked whole. -/
theorem extractSNI_bytes {conn rest : Conn} {firstByte : UInt8} {x : Extracted}
    (h : extractSNI conn firstByte = (some x, rest)) (herr : x.err = none) :
    x.peeked ++ rest.bytes = firstByte :: conn.bytes := by
  rcases extractSNI_cases conn firstByte with
    ⟨e, rest', hfail⟩ | ⟨hdr, recLen, recData, host, conn₁, rest', hr, _, hr', _, hread⟩
  · rw [hfail] at h
    obtain ⟨rfl, rfl⟩ := by simpa using h
    cases herr
  · rw [hread] at h
    obtain ⟨rfl, rfl⟩ := by simpa using h
    -- what the two reads have taken, and what they have left
    have hhdr := Source.readFull_bytes tlsRecordHdrTail [] conn
    have hrec := Source.readFull_bytes recLen.toNat [] conn₁
    rw [hr] at hhdr
    rw [hr'] at hrec
    simp only [List.nil_append] at hhdr hrec
    show [firstByte] ++ hdr ++ recData ++ rest'.bytes = _
    rw [List.append_assoc, List.append_assoc, hrec, hhdr]
    rfl

/-! ## The HTTP branch -/

/-- The loop loses nothing, however it ends. -/
theorem httpLoop_bytes (buf : List UInt8) (conn : Conn) :
    (httpLoop buf conn).1.1 ++ (httpLoop buf conn).2.bytes = buf ++ conn.bytes := by
  induction buf, conn using httpLoop.induct with
  | case1 buf conn hbuf tmp e conn' hread =>
      have hbytes := Source.read_bytes httpReadBufSize conn
      rw [hread] at hbytes
      rw [httpLoop_step hbuf hread, ← hbytes]
      exact List.append_assoc buf tmp conn'.bytes
  | case2 buf conn hbuf tmp conn' hread hend =>
      have hbytes := Source.read_bytes httpReadBufSize conn
      rw [hread] at hbytes
      rw [httpLoop_step hbuf hread, ← hbytes]
      simp only [if_pos hend]
      exact List.append_assoc buf tmp conn'.bytes
  | case3 buf conn hbuf tmp conn' hread hend ih =>
      have hbytes := Source.read_bytes httpReadBufSize conn
      rw [hread] at hbytes
      rw [httpLoop_step hbuf hread, ← hbytes]
      simp only [if_neg hend]
      rw [ih]
      exact List.append_assoc buf tmp conn'.bytes
  | case4 buf conn hbuf => rw [httpLoop_full hbuf]

theorem extractHTTPHost_bytes {lowerRune : Nat → Nat} {conn rest : Conn} {firstByte : UInt8}
    {x : Extracted} (h : extractHTTPHost lowerRune conn firstByte = (some x, rest)) :
    x.peeked ++ rest.bytes = firstByte :: conn.bytes := by
  unfold extractHTTPHost at h
  have hbytes := httpLoop_bytes [firstByte] conn
  cases hr : httpLoop [firstByte] conn with
  | mk out conn' =>
      obtain ⟨peeked, err⟩ := out
      rw [hr] at h hbytes
      obtain ⟨hhost, rfl⟩ := Prod.mk.inj h
      obtain ⟨host, _, rfl⟩ := Option.map_eq_some_iff.mp hhost
      exact hbytes

/-! ## The handler -/

theorem handle_bytes {lowerRune : Nat → Nat} {conn rest : Conn} {target : GoString}
    {peeked : List UInt8} (h : handle lowerRune conn = (.dial target peeked, rest)) :
    peeked ++ rest.bytes = conn.bytes := by
  obtain ⟨b, conn', x, _, hbytes, herr, _, rfl, hbranch⟩ := handle_dial h
  rw [hbytes]
  rcases hbranch with ⟨_, hx, _⟩ | ⟨_, hx, _⟩
  · exact extractSNI_bytes hx herr
  · exact extractHTTPHost_bytes hx

/-- Whenever the handler reaches the dial, the peeked bytes are what it consumed;
and what `io.Copy` then reads, with a buffer of any size, continues them: the
stream is whole if no read fails, and otherwise what was read up to the failing
read and what is left after it still make up the stream. -/
theorem upstream_stream_intact (lowerRune : Nat → Nat) (conn rest : Conn) (target : GoString)
    (peeked : List UInt8) (h : handle lowerRune conn = (.dial target peeked, rest)) :
    peeked ++ rest.bytes = conn.bytes ∧
      ∀ room, peeked ++ (rest.copy room).1 ++ (rest.copy room).2.2.bytes = conn.bytes ∧
        (rest.Clean → peeked ++ (rest.copy room).1 = conn.bytes) := by
  have hpeeked := handle_bytes h
  refine ⟨hpeeked, fun room => ⟨?_, ?_⟩⟩
  · rw [List.append_assoc, Source.copy_bytes, hpeeked]
  · intro hclean
    rw [Source.copy_clean room hclean, hpeeked]

/-- A hello that arrives in three reads, the first of a single byte. -/
def sampleClient : Conn := ⟨[tlsRecordHandshake], none⟩ :: ClientHello.sampleConn

theorem upstream_stream_intact_sample :
    ∃ rest, handle id sampleClient =
        (.dial (ascii "a.io:443") ClientHello.sampleRecord.bytes, rest) ∧
      ClientHello.sampleRecord.bytes ++ rest.bytes = sampleClient.bytes := by
  have hclean : sampleClient.Clean := by
    intro c hc
    rcases List.mem_cons.mp hc with rfl | hc
    · rfl
    · exact ClientHello.sampleConn_clean c hc
  have hbytes : sampleClient.bytes = ClientHello.sampleRecord.bytes ++ [0x17] := by
    rw [sampleClient, Source.bytes_cons, ClientHello.sampleConn_bytes]
    rfl
  obtain ⟨rest, hdial, _⟩ := ClientHello.handle_hello ClientHello.sampleHello_announces (by decide)
    id hclean hbytes
  have htarget : dialTarget (ascii "a.io") httpsPort = ascii "a.io:443" := by decide
  rw [htarget] at hdial
  exact ⟨rest, hdial, (upstream_stream_intact id sampleClient rest _ _ hdial).1⟩

end AiInterceptor.Theorems.StreamIntact
