import AiInterceptor.Proxy.Handle

/-!
# What the handler does with a connection

One turn of the read loop, what follows the first byte, and what a dial says about
the extraction in front of it.
-/

namespace AiInterceptor.Proxy

open Lib Go

/-! ## The HTTP branch -/

/-- One turn of the read loop. -/
theorem httpLoop_step {buf tmp : List UInt8} {conn conn' : Conn} {err : Option IoError}
    (hbuf : buf.length < httpMaxHeaderBuf)
    (hread : conn.read httpReadBufSize = ((tmp, err), conn')) :
    httpLoop buf conn =
      match err with
      | some e => ((buf ++ tmp, some e), conn')
      | none =>
          if contains (buf ++ tmp) headEnd then ((buf ++ tmp, none), conn')
          else httpLoop (buf ++ tmp) conn' := by
  rw [httpLoop, if_pos hbuf]
  split <;> rename_i heq
  · obtain ⟨⟨rfl, rfl⟩, rfl⟩ := by simpa using heq.symm.trans hread
    rfl
  · obtain ⟨⟨rfl, rfl⟩, rfl⟩ := by simpa using heq.symm.trans hread
    rfl

/-- At the limit the loop ends. -/
theorem httpLoop_full {buf : List UInt8} (hbuf : ¬ buf.length < httpMaxHeaderBuf) (conn : Conn) :
    httpLoop buf conn = ((buf, none), conn) := by
  rw [httpLoop, if_neg hbuf]

section Handle

variable {lowerRune : Nat → Nat}

/-- The host is the one in what the loop has read. -/
theorem extractHTTPHost_host (conn : Conn) (b : UInt8) :
    (extractHTTPHost lowerRune conn b).1.map Extracted.host =
      parseHostHeader lowerRune (httpLoop [b] conn).1.1 := by
  unfold extractHTTPHost
  cases httpLoop [b] conn with
  | mk out rest =>
      obtain ⟨peeked, err⟩ := out
      show Option.map Extracted.host (Option.map _ (parseHostHeader lowerRune peeked)) = _
      cases parseHostHeader lowerRune peeked with
      | none => rfl
      | some host => rfl

/-- With a host there is no error left. -/
theorem extractHTTPHost_err {conn rest : Conn} {b : UInt8} {x : Extracted}
    (h : extractHTTPHost lowerRune conn b = (some x, rest)) (hhost : x.host ≠ []) :
    x.err = none := by
  unfold extractHTTPHost at h
  cases hr : httpLoop [b] conn with
  | mk out conn' =>
      obtain ⟨peeked, err⟩ := out
      rw [hr] at h
      obtain ⟨host, _, rfl⟩ := Option.map_eq_some_iff.mp (Prod.mk.inj h).1
      exact if_pos hhost

/-- A request that arrives in one read. -/
theorem extractHTTPHost_oneRead {b : UInt8} {s : List UInt8} {host : GoString}
    (hs : s.length ≤ httpReadBufSize) (hend : contains (b :: s) headEnd = true)
    (hhost : parseHostHeader lowerRune (b :: s) = some host) :
    extractHTTPHost lowerRune [⟨s, none⟩] b = (some ⟨host, b :: s, none⟩, []) := by
  have hloop : httpLoop [b] [⟨s, none⟩] = ((b :: s, none), []) := by
    have hbuf : [b].length < httpMaxHeaderBuf := show 1 < 16384 by omega
    have hread : Source.read httpReadBufSize [⟨s, none⟩] = ((s, none), []) :=
      Source.read_fits [] hs
    rw [httpLoop_step hbuf hread]
    exact if_pos hend
  rw [extractHTTPHost, hloop]
  show ((parseHostHeader lowerRune (b :: s)).map _, _) = _
  rw [hhost, Option.map_some, ite_self]

/-! ## The handler -/

/-- The first read fails, or gives the first byte of the stream. -/
theorem first_cases (conn : Conn) :
    (∃ first e conn', conn.readFull 1 [] = ((first, some e), conn')) ∨
      ∃ b conn', conn.readFull 1 [] = (([b], none), conn') ∧ conn.bytes = b :: conn'.bytes := by
  have hlen := Source.readFull_length 1 [] conn
  have hbytes := Source.readFull_bytes 1 [] conn
  cases hr : conn.readFull 1 [] with
  | mk out conn' =>
      obtain ⟨first, err⟩ := out
      rw [hr] at hlen hbytes
      cases err with
      | some e => exact .inl ⟨first, e, conn', rfl⟩
      | none =>
          obtain ⟨b, rfl⟩ := List.length_eq_one_iff.mp (hlen rfl)
          exact .inr ⟨b, conn', rfl, hbytes.symm⟩

theorem handle_failed {conn conn' : Conn} {first : List UInt8} {e : IoError}
    (hfirst : conn.readFull 1 [] = ((first, some e), conn')) :
    handle lowerRune conn = (.closed, conn') := by
  rw [handle, hfirst]

theorem handle_eq {conn conn' : Conn} {b : UInt8}
    (hfirst : conn.readFull 1 [] = (([b], none), conn')) :
    handle lowerRune conn =
      if b = tlsRecordHandshake then finish httpsPort (extractSNI conn' b)
      else finish httpPort (extractHTTPHost lowerRune conn' b) := by
  rw [handle, hfirst]
  rfl

theorem finish_dial {port : GoString} {r : Option Extracted × Conn} {target : GoString}
    {peeked : List UInt8} {rest : Conn} (h : finish port r = (.dial target peeked, rest)) :
    ∃ x, r = (some x, rest) ∧ x.err = none ∧ x.host ≠ [] ∧ x.peeked = peeked ∧
      target = dialTarget x.host port := by
  obtain ⟨res, conn⟩ := r
  cases res with
  | none => cases h
  | some x =>
      simp only [finish] at h
      split at h
      · cases h
      · rename_i hx
        rw [not_or] at hx
        obtain ⟨hdial, rfl⟩ := Prod.mk.inj h
        obtain ⟨rfl, rfl⟩ := Handled.dial.inj hdial
        exact ⟨x, rfl, by simpa using hx.1, hx.2, rfl, rfl⟩

/-- In front of a dial there is a first byte, and an extraction by its branch that
has found a host. -/
theorem handle_dial {conn rest : Conn} {target : GoString} {peeked : List UInt8}
    (h : handle lowerRune conn = (.dial target peeked, rest)) :
    ∃ b conn' x, conn.readFull 1 [] = (([b], none), conn') ∧ conn.bytes = b :: conn'.bytes ∧
      x.err = none ∧ x.host ≠ [] ∧ x.peeked = peeked ∧
      ((b = tlsRecordHandshake ∧ extractSNI conn' b = (some x, rest) ∧
          target = dialTarget x.host httpsPort) ∨
        (b ≠ tlsRecordHandshake ∧ extractHTTPHost lowerRune conn' b = (some x, rest) ∧
          target = dialTarget x.host httpPort)) := by
  rcases first_cases conn with ⟨first, e, conn', hfirst⟩ | ⟨b, conn', hfirst, hbytes⟩
  · rw [handle_failed hfirst] at h
    cases h
  · rw [handle_eq hfirst] at h
    by_cases htls : b = tlsRecordHandshake
    · rw [if_pos htls] at h
      obtain ⟨x, hx, herr, hhost, hpeeked, htarget⟩ := finish_dial h
      exact ⟨b, conn', x, hfirst, hbytes, herr, hhost, hpeeked, .inl ⟨htls, hx, htarget⟩⟩
    · rw [if_neg htls] at h
      obtain ⟨x, hx, herr, hhost, hpeeked, htarget⟩ := finish_dial h
      exact ⟨b, conn', x, hfirst, hbytes, herr, hhost, hpeeked, .inr ⟨htls, hx, htarget⟩⟩

end Handle

end AiInterceptor.Proxy
