import AiInterceptor.Logic.Handle
import AiInterceptor.Logic.Sni
import AiInterceptor.Proxy.Session

/-!
# A session goes through `handle`

`resume` is what is left of `handle` in each phase: the same reads and the same
extraction, from the bytes in hand on. A read that fits into the buffer moves a
session to the phase that `handle` is in after it (`resume_read`), so the phase of a
session is what `handle` makes of the reads it has seen.
-/

namespace AiInterceptor.Proxy

open Lib Go

/-! ## One read of `io.ReadFull` -/

/-- A read fills the buffer, leaves it short, or fails. -/
theorem fill_cases {need : Nat} {got data : List UInt8} (err : Option IoError)
    (hroom : 0 < need - got.length) (hfits : data.length ≤ need - got.length) :
    (fill need got data err = .full (got ++ data) ∧ data.length = need - got.length ∧
      ∀ rest, Source.readFull (need - got.length) got (⟨data, err⟩ :: rest) =
        ((got ++ data, none), rest)) ∨
    (fill need got data err = .more (got ++ data) ∧ data.length < need - got.length ∧
      ∀ rest, Source.readFull (need - got.length) got (⟨data, err⟩ :: rest) =
        Source.readFull (need - (got ++ data).length) (got ++ data) rest) ∨
    ∃ e, fill need got data err = .failed e ∧
      ∀ rest, Source.readFull (need - got.length) got (⟨data, err⟩ :: rest) =
        ((got ++ data, some e), rest) := by
  have hread : ∀ rest, Source.read (need - got.length) (⟨data, err⟩ :: rest) =
      ((data, err), rest) := fun rest => Source.read_fits rest hfits
  by_cases hlen : data.length = need - got.length
  · refine .inl ⟨if_pos hlen, hlen, ?_⟩
    intro rest
    rw [Source.readFull_step (by omega) (hread rest), if_pos hlen]
  · cases err with
    | none =>
        refine .inr (.inl ⟨if_neg hlen, by omega, ?_⟩)
        intro rest
        rw [Source.readFull_step (by omega) (hread rest), if_neg hlen, List.length_append,
          ← Nat.sub_sub]
    | some e =>
        refine .inr (.inr ⟨_, if_neg hlen, ?_⟩)
        intro rest
        rw [Source.readFull_step (by omega) (hread rest), if_neg hlen]

/-! ## What is left of `handle` -/

/-- The end of `extractSNI`, from what the read of the record has given. -/
def sniRecord (b : UInt8) (hdr : List UInt8) :
    (List UInt8 × Option IoError) × Conn → Option Extracted × Conn
  | ((_, some e), conn) => (some ⟨[], [], some e⟩, conn)
  | ((recData, none), conn) =>
      ((recordHost recData).map fun host => ⟨host, [b] ++ hdr ++ recData, none⟩, conn)

/-- `extractSNI` from what the read of the header has given. -/
def sniHeader (b : UInt8) : (List UInt8 × Option IoError) × Conn → Option Extracted × Conn
  | ((_, some e), conn) => (some ⟨[], [], some e⟩, conn)
  | ((hdr, none), conn) =>
      match uint16At hdr tlsRecordLenOffset with
      | none => (none, conn)
      | some recLen => sniRecord b hdr (conn.readFull recLen.toNat [])

theorem extractSNI_eq (conn : Conn) (b : UInt8) :
    extractSNI conn b = sniHeader b (conn.readFull tlsRecordHdrTail []) := by
  unfold extractSNI sniHeader
  cases conn.readFull tlsRecordHdrTail [] with
  | mk out conn₁ =>
      obtain ⟨hdr, err⟩ := out
      cases err with
      | some e => rfl
      | none =>
          dsimp only
          cases uint16At hdr tlsRecordLenOffset with
          | none => rfl
          | some recLen =>
              dsimp only
              cases conn₁.readFull recLen.toNat [] with
              | mk out' conn₂ =>
                  obtain ⟨recData, err'⟩ := out'
                  cases err' with
                  | some e => rfl
                  | none => rfl

/-- `extractHTTPHost` from what the loop has given. -/
def httpHost (lowerRune : Nat → Nat) :
    (List UInt8 × Option IoError) × Conn → Option Extracted × Conn
  | ((peeked, err), conn) =>
      ((parseHostHeader lowerRune peeked).map fun host =>
        ⟨host, peeked, if host ≠ [] then none else err⟩, conn)

namespace Phase

/-- What is left of `handle`, up to the dial. -/
def resume (lowerRune : Nat → Nat) : Phase → Conn → Handled × Conn
  | .first, conn => handle lowerRune conn
  | .header b got, conn =>
      finish httpsPort (sniHeader b (conn.readFull (tlsRecordHdrTail - got.length) got))
  | .record b hdr recLen got, conn =>
      finish httpsPort (sniRecord b hdr (conn.readFull (recLen - got.length) got))
  | .head buf, conn => finish httpPort (httpHost lowerRune (httpLoop buf conn))
  | .dialing d, conn | .forwarding d, conn | .relaying d, conn => (.dial d.target d.peeked, conn)
  | .closed (.dial d), conn | .closed (.forward d), conn | .closed (.relayed d), conn =>
      (.dial d.target d.peeked, conn)
  | .closed (.firstRead _), conn | .closed (.noHost _), conn => (.closed, conn)
  | .panicked, conn => (.panicked, conn)

section Resume

variable {lowerRune : Nat → Nat}

theorem resume_settle (port : GoString) (x : Option Extracted) (conn : Conn) :
    (settle port x).resume lowerRune conn = finish port (x, conn) := by
  cases x with
  | none => rfl
  | some x =>
      by_cases hclosed : x.err.isSome ∨ x.host = []
      · rw [settle, if_pos hclosed, finish, if_pos hclosed]
        rfl
      · rw [settle, if_neg hclosed, finish, if_neg hclosed]
        rfl

theorem resume_endRecord (b : UInt8) (hdr recData : List UInt8) (conn : Conn) :
    (endRecord b hdr recData).resume lowerRune conn =
      finish httpsPort (sniRecord b hdr ((recData, none), conn)) :=
  resume_settle httpsPort _ conn

theorem resume_enterRecord (b : UInt8) (hdr : List UInt8) (conn : Conn) :
    (enterRecord b hdr).resume lowerRune conn =
      finish httpsPort (sniHeader b ((hdr, none), conn)) := by
  cases hlen : uint16At hdr tlsRecordLenOffset with
  | none => simp only [enterRecord, sniHeader, hlen, resume, finish]
  | some recLen =>
      by_cases hzero : recLen.toNat = 0
      -- an empty record is there without a read
      · simp only [enterRecord, sniHeader, hlen, if_pos hzero, resume_endRecord]
        rw [hzero, Source.readFull_zero]
      · simp only [enterRecord, sniHeader, hlen, if_neg hzero, resume, List.length_nil,
          Nat.sub_zero]

theorem resume_endHead (buf : List UInt8) (err : Option IoError) (conn : Conn) :
    (endHead lowerRune buf err).resume lowerRune conn =
      finish httpPort (httpHost lowerRune ((buf, err), conn)) :=
  resume_settle httpPort _ conn

theorem resume_enterHead (buf : List UInt8) (conn : Conn) :
    (enterHead lowerRune buf).resume lowerRune conn =
      finish httpPort (httpHost lowerRune (httpLoop buf conn)) := by
  rw [enterHead]
  by_cases hbuf : buf.length < httpMaxHeaderBuf
  · rw [if_pos hbuf]
    rfl
  · rw [if_neg hbuf, httpLoop_full hbuf]
    exact resume_endHead buf none conn

/-- `handle` looks at the connection only through its first read. -/
theorem handle_congr {conn conn' : Conn} (h : conn.readFull 1 [] = conn'.readFull 1 []) :
    handle lowerRune conn = handle lowerRune conn' := by
  rw [handle, handle, h]

/-- The first byte decides the branch. -/
theorem resume_first {b : UInt8} {conn conn' : Conn}
    (hfirst : conn.readFull 1 [] = (([b], none), conn')) :
    handle lowerRune conn =
      (if b = tlsRecordHandshake then Phase.header b [] else enterHead lowerRune [b]).resume
        lowerRune conn' := by
  rw [handle_eq hfirst]
  by_cases htls : b = tlsRecordHandshake
  · rw [if_pos htls, if_pos htls, extractSNI_eq]
    rfl
  · rw [if_neg htls, if_neg htls, resume_enterHead]
    rfl

theorem resume_header (b : UInt8) (got : List UInt8) (conn : Conn) :
    (Phase.header b got).resume lowerRune conn =
      finish httpsPort (sniHeader b (conn.readFull (tlsRecordHdrTail - got.length) got)) := rfl

theorem resume_record (b : UInt8) (hdr : List UInt8) (recLen : Nat) (got : List UInt8)
    (conn : Conn) :
    (Phase.record b hdr recLen got).resume lowerRune conn =
      finish httpsPort (sniRecord b hdr (conn.readFull (recLen - got.length) got)) := rfl

/-- **One read.** A read that fits takes a phase to the one `handle` is in then. -/
theorem resume_read {phase : Phase} {data : List UInt8} {err : Option IoError}
    (hroom : 0 < phase.room) (hfits : data.length ≤ phase.room) (future : Conn) :
    phase.resume lowerRune (⟨data, err⟩ :: future) =
      (phase.read lowerRune data err).resume lowerRune future := by
  cases phase with
  | first =>
      have hfits' : data.length ≤ 1 - ([] : List UInt8).length := hfits
      rcases fill_cases err hroom hfits' with ⟨hf, hlen, hread⟩ | ⟨hf, hlen, hread⟩ | ⟨e, hf, hread⟩
      · obtain ⟨b, rfl⟩ := List.length_eq_one_iff.mp hlen
        simp only [read, hf]
        exact resume_first (hread future)
      · -- nothing was read
        obtain rfl : data = [] := List.length_eq_zero_iff.mp (Nat.lt_one_iff.mp hlen)
        simp only [read, hf]
        exact handle_congr (hread future)
      · simp only [read, hf]
        exact handle_failed (hread future)
  | header b got =>
      rcases fill_cases err hroom hfits with ⟨hf, _, hread⟩ | ⟨hf, _, hread⟩ | ⟨e, hf, hread⟩
      · simp only [read, hf]
        rw [resume_header, hread, resume_enterRecord]
      · simp only [read, hf]
        rw [resume_header, hread, resume_header]
      · simp only [read, hf]
        rw [resume_header, hread, resume_settle]
        rfl
  | record b hdr recLen got =>
      rcases fill_cases err hroom hfits with ⟨hf, _, hread⟩ | ⟨hf, _, hread⟩ | ⟨e, hf, hread⟩
      · simp only [read, hf]
        rw [resume_record, hread, resume_endRecord]
      · simp only [read, hf]
        rw [resume_record, hread, resume_record]
      · simp only [read, hf]
        rw [resume_record, hread, resume_settle]
        rfl
  | head buf =>
      by_cases hbuf : buf.length < httpMaxHeaderBuf
      · rw [room, if_pos hbuf] at hfits
        have hread : Source.read httpReadBufSize (⟨data, err⟩ :: future) =
            ((data, err), future) := Source.read_fits future hfits
        show finish httpPort (httpHost lowerRune (httpLoop buf (⟨data, err⟩ :: future))) = _
        rw [httpLoop_step hbuf hread]
        cases err with
        | some e => exact (resume_endHead (buf ++ data) (some e) future).symm
        | none =>
            by_cases hend : contains (buf ++ data) headEnd = true
            · simp only [read, if_pos hend]
              exact (resume_endHead (buf ++ data) none future).symm
            · simp only [read, if_neg hend]
              exact (resume_enterHead (buf ++ data) future).symm
      · rw [room, if_neg hbuf] at hroom
        cases hroom
  | dialing d | forwarding d | relaying d | closed why | panicked => cases hroom

end Resume

/-! ## What is in hand -/

/-- The client's bytes that have been read and not been forwarded. -/
def held : Phase → List UInt8
  | .first => []
  | .header b got => b :: got
  | .record b hdr _ got => b :: (hdr ++ got)
  | .head buf => buf
  | .dialing d | .forwarding d => d.peeked
  | .relaying _ | .closed _ | .panicked => []

/-- No read is waited for any more. -/
def settled : Phase → Bool
  | .first | .header .. | .record .. | .head _ => false
  | _ => true

section Read

variable {lowerRune : Nat → Nat}

theorem held_settle {port : GoString} {x : Option Extracted}
    (h : (settle port x).hasEnded = false) : ∃ y, x = some y ∧ (settle port x).held = y.peeked := by
  cases x with
  | none => cases h
  | some y =>
      by_cases hclosed : y.err.isSome ∨ y.host = []
      · rw [settle, if_pos hclosed] at h
        cases h
      · rw [settle, if_neg hclosed]
        exact ⟨y, rfl, rfl⟩

theorem held_endRecord {b : UInt8} {hdr recData : List UInt8}
    (h : (endRecord b hdr recData).hasEnded = false) :
    (endRecord b hdr recData).held = b :: (hdr ++ recData) := by
  obtain ⟨y, hy, hheld⟩ := held_settle h
  obtain ⟨host, _, rfl⟩ := Option.map_eq_some_iff.mp hy
  exact hheld

theorem held_enterRecord {b : UInt8} {hdr : List UInt8} (h : (enterRecord b hdr).hasEnded = false) :
    (enterRecord b hdr).held = b :: hdr := by
  cases hlen : uint16At hdr tlsRecordLenOffset with
  | none =>
      simp only [enterRecord, hlen] at h
      cases h
  | some recLen =>
      by_cases hzero : recLen.toNat = 0
      · simp only [enterRecord, hlen, if_pos hzero] at h ⊢
        rw [held_endRecord h, List.append_nil]
      · simp only [enterRecord, hlen, if_neg hzero]
        rw [held, List.append_nil]

theorem held_endHead {buf : List UInt8} {err : Option IoError}
    (h : (endHead lowerRune buf err).hasEnded = false) :
    (endHead lowerRune buf err).held = buf := by
  obtain ⟨y, hy, hheld⟩ := held_settle h
  obtain ⟨host, _, rfl⟩ := Option.map_eq_some_iff.mp hy
  exact hheld

theorem held_enterHead {buf : List UInt8} (h : (enterHead lowerRune buf).hasEnded = false) :
    (enterHead lowerRune buf).held = buf := by
  unfold enterHead at h ⊢
  by_cases hbuf : buf.length < httpMaxHeaderBuf
  · rw [if_pos hbuf]
    rfl
  · rw [if_neg hbuf] at h ⊢
    exact held_endHead h

/-- A session that goes on has what it had and what it has read. -/
theorem held_read {phase : Phase} {data : List UInt8} {err : Option IoError}
    (hroom : 0 < phase.room) (hfits : data.length ≤ phase.room)
    (h : (phase.read lowerRune data err).hasEnded = false) :
    (phase.read lowerRune data err).held = phase.held ++ data := by
  cases phase with
  | first =>
      have hfits' : data.length ≤ 1 - ([] : List UInt8).length := hfits
      rcases fill_cases err hroom hfits' with ⟨hf, hlen, _⟩ | ⟨hf, hlen, _⟩ | ⟨e, hf, _⟩
      · obtain ⟨b, rfl⟩ := List.length_eq_one_iff.mp hlen
        simp only [read, hf] at h ⊢
        change (if b = tlsRecordHandshake then Phase.header b []
          else enterHead lowerRune [b]).hasEnded = false at h
        show (if b = tlsRecordHandshake then Phase.header b []
          else enterHead lowerRune [b]).held = [b]
        by_cases htls : b = tlsRecordHandshake
        · rw [if_pos htls]
          rfl
        · rw [if_neg htls] at h ⊢
          exact held_enterHead h
      · obtain rfl : data = [] := List.length_eq_zero_iff.mp (Nat.lt_one_iff.mp hlen)
        simp only [read, hf]
        rfl
      · simp only [read, hf] at h
        cases h
  | header b got =>
      rcases fill_cases err hroom hfits with ⟨hf, _, _⟩ | ⟨hf, _, _⟩ | ⟨e, hf, _⟩
      · simp only [read, hf] at h ⊢
        exact held_enterRecord h
      · simp only [read, hf]
        rfl
      · simp only [read, hf] at h
        cases h
  | record b hdr recLen got =>
      rcases fill_cases err hroom hfits with ⟨hf, _, _⟩ | ⟨hf, _, _⟩ | ⟨e, hf, _⟩
      · simp only [read, hf] at h ⊢
        rw [held_endRecord h, held, List.cons_append, List.append_assoc]
      · simp only [read, hf]
        rw [held, held, List.cons_append, List.append_assoc]
      · simp only [read, hf] at h
        cases h
  | head buf =>
      cases err with
      | some e => exact held_endHead h
      | none =>
          by_cases hend : contains (buf ++ data) headEnd = true
          · simp only [read, if_pos hend] at h ⊢
            exact held_endHead h
          · simp only [read, if_neg hend] at h ⊢
            exact held_enterHead h
  | dialing d | forwarding d | relaying d | closed why | panicked => cases hroom

/-- The upstream is not there yet, and a read that is waited for has room. -/
def Early (phase : Phase) : Prop :=
  phase.connected = false ∧ (phase.settled = false → 0 < phase.room)

theorem early_settle (port : GoString) (x : Option Extracted) : (settle port x).Early := by
  cases x with
  | none => exact ⟨rfl, fun h => by cases h⟩
  | some y =>
      by_cases hclosed : y.err.isSome ∨ y.host = []
      · rw [settle, if_pos hclosed]
        exact ⟨rfl, fun h => by cases h⟩
      · rw [settle, if_neg hclosed]
        exact ⟨rfl, fun h => by cases h⟩

theorem early_enterRecord (b : UInt8) (hdr : List UInt8) : (enterRecord b hdr).Early := by
  cases hlen : uint16At hdr tlsRecordLenOffset with
  | none =>
      simp only [enterRecord, hlen]
      exact ⟨rfl, fun h => by cases h⟩
  | some recLen =>
      by_cases hzero : recLen.toNat = 0
      · simp only [enterRecord, hlen, if_pos hzero]
        exact early_settle httpsPort _
      · simp only [enterRecord, hlen, if_neg hzero]
        exact ⟨rfl, fun _ => Nat.pos_of_ne_zero hzero⟩

theorem early_enterHead (buf : List UInt8) : (enterHead lowerRune buf).Early := by
  unfold enterHead
  by_cases hbuf : buf.length < httpMaxHeaderBuf
  · rw [if_pos hbuf]
    refine ⟨rfl, fun _ => ?_⟩
    rw [room, if_pos hbuf]
    decide
  · rw [if_neg hbuf]
    exact early_settle httpPort _

theorem early_read {phase : Phase} {data : List UInt8} {err : Option IoError}
    (hroom : 0 < phase.room) (hfits : data.length ≤ phase.room) :
    (phase.read lowerRune data err).Early := by
  -- after a short read there is room for the rest
  have hmore : ∀ {need : Nat} {got : List UInt8}, data.length < need - got.length →
      0 < need - (got ++ data).length := by
    intro need got hlt
    rw [List.length_append]
    omega
  cases phase with
  | first =>
      have hfits' : data.length ≤ 1 - ([] : List UInt8).length := hfits
      rcases fill_cases err hroom hfits' with ⟨hf, hlen, _⟩ | ⟨hf, hlen, _⟩ | ⟨e, hf, _⟩
      · obtain ⟨b, rfl⟩ := List.length_eq_one_iff.mp hlen
        simp only [read, hf]
        show (if b = tlsRecordHandshake then Phase.header b [] else enterHead lowerRune [b]).Early
        by_cases htls : b = tlsRecordHandshake
        · rw [if_pos htls]
          exact ⟨rfl, fun _ => show 0 < 4 - 0 by omega⟩
        · rw [if_neg htls]
          exact early_enterHead [b]
      · simp only [read, hf]
        exact ⟨rfl, fun _ => Nat.one_pos⟩
      · simp only [read, hf]
        exact ⟨rfl, fun h => by cases h⟩
  | header b got =>
      rcases fill_cases err hroom hfits with ⟨hf, _, _⟩ | ⟨hf, hlt, _⟩ | ⟨e, hf, _⟩
      · simp only [read, hf]
        exact early_enterRecord b (got ++ data)
      · simp only [read, hf]
        exact ⟨rfl, fun _ => hmore hlt⟩
      · simp only [read, hf]
        exact early_settle httpsPort _
  | record b hdr recLen got =>
      rcases fill_cases err hroom hfits with ⟨hf, _, _⟩ | ⟨hf, hlt, _⟩ | ⟨e, hf, _⟩
      · simp only [read, hf]
        exact early_settle httpsPort _
      · simp only [read, hf]
        exact ⟨rfl, fun _ => hmore hlt⟩
      · simp only [read, hf]
        exact early_settle httpsPort _
  | head buf =>
      cases err with
      | some e => exact early_settle httpPort _
      | none =>
          by_cases hend : contains (buf ++ data) headEnd = true
          · simp only [read, if_pos hend]
            exact early_settle httpPort _
          · simp only [read, if_neg hend]
            exact early_enterHead (buf ++ data)
  | dialing d | forwarding d | relaying d | closed why | panicked => cases hroom

end Read

end Phase

/-! ## The steps of a session -/

namespace Session

/-- Everything one step can do to a session. -/
theorem step_cases {lowerRune : Nat → Nat} {s s' : Session} {ev : Event}
    (h : step lowerRune s ev = some s') :
    (∃ e relay, ev = .wire e ∧ admits s.phase e = true ∧ s.relay.step e = some relay ∧
      s' = ⟨afterWire s.phase e, relay⟩) ∨
    (∃ n err, ev = .read n err ∧ 0 < s.phase.room ∧ n ≤ s.phase.room ∧
      n ≤ s.relay.up.inbound.length ∧
      s' = goto { s.relay with up := { s.relay.up with inbound := s.relay.up.inbound.drop n } }
        (s.phase.read lowerRune (s.taken n) err)) ∨
    (∃ d, s.phase = .dialing d ∧ ((ev = .dial true ∧ s' = goto s.relay (.forwarding d)) ∨
      (ev = .dial false ∧ s' = goto s.relay (.closed (.dial d))))) ∨
    (∃ d, s.phase = .forwarding d ∧
      ((ev = .forward none ∧
        s' = goto { s.relay with
          up := { s.relay.up with delivered := s.relay.up.delivered ++ d.peeked } } (.relaying d)) ∨
      ∃ n, ev = .forward (some n) ∧
        s' = goto { s.relay with
          up := { s.relay.up with delivered := s.relay.up.delivered ++ d.peeked.take n } }
          (.closed (.forward d)))) := by
  cases ev with
  | wire e =>
      simp only [step] at h
      split at h
      · rename_i hadmits
        obtain ⟨relay, hrelay, rfl⟩ := Option.map_eq_some_iff.mp h
        exact .inl ⟨e, relay, rfl, hadmits, hrelay, rfl⟩
      · cases h
  | read n err =>
      simp only [step] at h
      split at h
      · rename_i hcan
        obtain ⟨hroom, hfits, hin, _⟩ := of_decide_eq_true hcan
        exact .inr (.inl ⟨n, err, rfl, hroom, hfits, hin, (Option.some.inj h).symm⟩)
      · cases h
  | dial ok =>
      simp only [step] at h
      split at h
      · rename_i d hphase
        refine .inr (.inr (.inl ⟨d, hphase, ?_⟩))
        cases ok with
        | true => exact .inl ⟨rfl, (Option.some.inj h).symm⟩
        | false => exact .inr ⟨rfl, (Option.some.inj h).symm⟩
      · cases h
  | forward failed =>
      simp only [step] at h
      split at h
      · rename_i d hphase
        refine .inr (.inr (.inr ⟨d, hphase, ?_⟩))
        cases failed with
        | none => exact .inl ⟨rfl, (Option.some.inj h).symm⟩
        | some n =>
            dsimp only at h
            split at h
            · exact .inr ⟨n, rfl, (Option.some.inj h).symm⟩
            · cases h
      · cases h

end Session

end AiInterceptor.Proxy
