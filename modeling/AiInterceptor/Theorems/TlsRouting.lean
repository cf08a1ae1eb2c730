import AiInterceptor.Logic.Sni
import AiInterceptor.Theorems.ClientHello
import AiInterceptor.Theorems.Sessions

/-!
# Where a TLS session goes

A TLS session is routed by its client's first record, and by nothing else: not by the
reads that record arrived in, nor by what comes after it, nor by the other sessions.
`Routed` says for every phase what the bytes read so far hold; from it follow that
sessions whose clients send the same are dialled to the same target (`tls_routing`),
and that a ClientHello is routed to the host it announces (`hello_routed`).
-/

namespace AiInterceptor.Theorems.TlsRouting

open Lib Go Proxy Proxy.Phase Sessions ClientHello

/-! ## The first record of a stream -/

/-- The stream starts as TLS. -/
def Tls (stream : List UInt8) : Prop := stream.head? = some tlsRecordHandshake

/-- The stream starts as something else. -/
def Plain (stream : List UInt8) : Prop := stream ≠ [] ∧ ¬ Tls stream

/-- The stream starts with a whole record, with this header and data. -/
structure FirstRecord (stream hdr recData : List UInt8) : Prop where
  starts : tlsRecordHandshake :: (hdr ++ recData) <+: stream
  header : hdr.length = tlsRecordHdrTail
  declared : (uint16At hdr tlsRecordLenOffset).map UInt16.toNat = some recData.length

/-- The first record names a host, and this is the dial it leads to. -/
def RoutesTo (stream : List UInt8) (d : Dialled) : Prop :=
  ∃ hdr recData host, FirstRecord stream hdr recData ∧ recordHost recData = some host ∧
    host ≠ [] ∧ d = ⟨dialTarget host httpsPort, tlsRecordHandshake :: (hdr ++ recData)⟩

/-- The first record names no host. -/
def Nameless (stream : List UInt8) : Prop :=
  ∃ hdr recData, FirstRecord stream hdr recData ∧ recordHost recData = some []

theorem Plain.mono {stream stream' : List UInt8} (h : Plain stream) (hmore : stream <+: stream') :
    Plain stream' := by
  obtain ⟨hne, htls⟩ := h
  obtain ⟨more, rfl⟩ := hmore
  cases stream with
  | nil => exact absurd rfl hne
  | cons b rest => exact ⟨List.cons_ne_nil _ _, htls⟩

section FirstRecord

variable {stream stream' hdr hdr' recData recData' : List UInt8}

theorem FirstRecord.mono (h : FirstRecord stream hdr recData) (hmore : stream <+: stream') :
    FirstRecord stream' hdr recData := ⟨h.starts.trans hmore, h.header, h.declared⟩

/-- The header is what stands behind the first byte. -/
theorem FirstRecord.header_eq (h : FirstRecord stream hdr recData) :
    hdr = (stream.drop 1).take tlsRecordHdrTail := by
  obtain ⟨rest, rfl⟩ := h.starts
  rw [← h.header]
  simp

theorem FirstRecord.unique (h : FirstRecord stream hdr recData)
    (h' : FirstRecord stream hdr' recData') : hdr = hdr' ∧ recData = recData' := by
  obtain rfl : hdr = hdr' := h.header_eq.trans h'.header_eq.symm
  have hlen : recData.length = recData'.length :=
    Option.some.inj (h.declared.symm.trans h'.declared)
  have hfirst := List.prefix_of_prefix_length_le h.starts h'.starts (by simp [hlen])
  have heq := hfirst.eq_of_length (by simp [hlen])
  exact ⟨rfl, List.append_cancel_left (List.cons.inj heq).2⟩

/-- A stream that ends inside its first record. -/
theorem not_firstRecord_short {got : List UInt8} {n : Nat} (hlen : hdr.length = tlsRecordHdrTail)
    (hn : (uint16At hdr tlsRecordLenOffset).map UInt16.toNat = some n) (hshort : got.length < n) :
    ¬ FirstRecord (tlsRecordHandshake :: (hdr ++ got)) hdr' recData := by
  intro h
  obtain rfl : hdr' = hdr := by
    rw [h.header_eq, ← hlen]
    simp
  have hrec : recData.length = n := Option.some.inj (h.declared.symm.trans hn)
  have hle := h.starts.length_le
  simp only [List.length_cons, List.length_append] at hle
  omega

/-- A stream that ends inside the header. -/
theorem not_firstRecord_header (hshort : stream.length < 1 + tlsRecordHdrTail) :
    ¬ FirstRecord stream hdr recData := by
  intro h
  have hle := h.starts.length_le
  have hhdr := h.header
  simp only [List.length_cons, List.length_append] at hle
  omega

theorem RoutesTo.mono {d : Dialled} (h : RoutesTo stream d) (hmore : stream <+: stream') :
    RoutesTo stream' d := by
  obtain ⟨hdr, recData, host, hrec, hhost, hne, rfl⟩ := h
  exact ⟨hdr, recData, host, hrec.mono hmore, hhost, hne, rfl⟩

theorem Nameless.mono (h : Nameless stream) (hmore : stream <+: stream') : Nameless stream' := by
  obtain ⟨hdr, recData, hrec, hhost⟩ := h
  exact ⟨hdr, recData, hrec.mono hmore, hhost⟩

/-- A stream is routed to one target. -/
theorem RoutesTo.unique {d d' : Dialled} (h : RoutesTo stream d) (h' : RoutesTo stream d') :
    d = d' := by
  obtain ⟨hdr, recData, host, hrec, hhost, _, rfl⟩ := h
  obtain ⟨hdr', recData', host', hrec', hhost', _, rfl⟩ := h'
  obtain ⟨rfl, rfl⟩ := hrec.unique hrec'
  rw [Option.some.inj (hhost.symm.trans hhost')]

theorem RoutesTo.named {d : Dialled} (h : RoutesTo stream d) : ¬ Nameless stream := by
  rintro ⟨hdr', recData', hrec', hhost'⟩
  obtain ⟨hdr, recData, host, hrec, hhost, hne, _⟩ := h
  obtain ⟨rfl, rfl⟩ := hrec.unique hrec'
  exact hne (Option.some.inj (hhost.symm.trans hhost'))

end FirstRecord

/-! ## Phases and the bytes read so far -/

/-- The dial a session has come to. -/
def dialled : Phase → Option Dialled
  | .dialing d | .forwarding d | .relaying d => some d
  | .closed (.dial d) | .closed (.forward d) | .closed (.relayed d) => some d
  | _ => none

theorem dialled_cases {phase : Phase} {d : Dialled} (h : dialled phase = some d) :
    phase = .dialing d ∨ phase = .forwarding d ∨ phase = .relaying d ∨
      phase = .closed (.dial d) ∨ phase = .closed (.forward d) ∨ phase = .closed (.relayed d) := by
  cases phase with
  | first | header b got | record b hdr recLen got | head buf | panicked => cases h
  | dialing d' | forwarding d' | relaying d' =>
      obtain rfl := Option.some.inj h
      simp
  | closed why =>
      cases why with
      | firstRead e | noHost err => cases h
      | dial d' | forward d' | relayed d' =>
          obtain rfl := Option.some.inj h
          simp

/-- What is known of the bytes read so far in each phase. -/
def Routed (bytes : List UInt8) : Phase → Prop
  | .first => bytes = []
  | .header b got => b = tlsRecordHandshake ∧ bytes = b :: got ∧ got.length < tlsRecordHdrTail
  | .record b hdr recLen got =>
      b = tlsRecordHandshake ∧ bytes = b :: (hdr ++ got) ∧ hdr.length = tlsRecordHdrTail ∧
        (uint16At hdr tlsRecordLenOffset).map UInt16.toNat = some recLen ∧ got.length < recLen
  | .head buf => bytes = buf ∧ Plain bytes
  | .dialing d | .forwarding d | .relaying d => Plain bytes ∨ RoutesTo bytes d
  | .closed (.dial d) | .closed (.forward d) | .closed (.relayed d) =>
      Plain bytes ∨ RoutesTo bytes d
  | .closed (.firstRead _) => bytes = []
  | .closed (.noHost none) => Plain bytes ∨ Nameless bytes
  | .closed (.noHost (some _)) => Plain bytes ∨ ∀ hdr recData, ¬ FirstRecord bytes hdr recData
  | .panicked => Plain bytes

section Routed

variable {lowerRune : Nat → Nat} {bytes hdr recData : List UInt8}

theorem Routed.at_dial {phase : Phase} (h : Routed bytes phase) {d : Dialled}
    (hd : dialled phase = some d) : Plain bytes ∨ RoutesTo bytes d := by
  rcases dialled_cases hd with rfl | rfl | rfl | rfl | rfl | rfl
  all_goals exact h

/-- Every end of the HTTP branch. -/
theorem routed_plain (h : Plain bytes) (port : GoString) (x : Option Extracted) :
    Routed bytes (settle port x) := by
  cases x with
  | none => exact h
  | some y =>
      rw [settle]
      split
      · cases y.err with
        | none => exact .inl h
        | some e => exact .inl h
      · exact .inl h

/-- A read fails inside the record. -/
theorem routed_failed (h : ∀ hdr recData, ¬ FirstRecord bytes hdr recData) (e : IoError) :
    Routed bytes (settle httpsPort (some ⟨[], [], some e⟩)) := by
  rw [settle, if_pos (.inl rfl)]
  exact .inr h

theorem routed_endRecord (hlen : hdr.length = tlsRecordHdrTail)
    (hrec : (uint16At hdr tlsRecordLenOffset).map UInt16.toNat = some recData.length) :
    Routed (tlsRecordHandshake :: (hdr ++ recData))
      (endRecord tlsRecordHandshake hdr recData) := by
  obtain ⟨host, hhost⟩ := recordHost_isSome recData
  have hfirst : FirstRecord (tlsRecordHandshake :: (hdr ++ recData)) hdr recData :=
    ⟨List.prefix_rfl, hlen, hrec⟩
  rw [endRecord, hhost, Option.map_some, settle]
  by_cases hne : host = []
  · rw [if_pos (.inr hne)]
    exact .inr ⟨hdr, recData, hfirst, hne ▸ hhost⟩
  · rw [if_neg (by simp [hne])]
    exact .inr ⟨hdr, recData, host, hfirst, hhost, hne, rfl⟩

theorem routed_enterRecord (hlen : hdr.length = tlsRecordHdrTail) :
    Routed (tlsRecordHandshake :: hdr) (enterRecord tlsRecordHandshake hdr) := by
  obtain ⟨recLen, hrec⟩ := @uint16At_isSome hdr tlsRecordLenOffset (by rw [hlen]; decide)
  have hdeclared : (uint16At hdr tlsRecordLenOffset).map UInt16.toNat = some recLen.toNat := by
    rw [hrec, Option.map_some]
  simp only [enterRecord, hrec]
  by_cases hzero : recLen.toNat = 0
  · rw [if_pos hzero]
    have hend := @routed_endRecord hdr [] hlen (by rw [hdeclared, hzero]; rfl)
    rwa [List.append_nil] at hend
  · rw [if_neg hzero]
    refine ⟨rfl, ?_, hlen, hdeclared, Nat.pos_of_ne_zero hzero⟩
    rw [List.append_nil]

theorem routed_enterHead (h : Plain bytes) :
    Routed bytes (enterHead lowerRune bytes) := by
  unfold enterHead
  split
  · exact ⟨rfl, h⟩
  · exact routed_plain h _ _

/-- A read that fails has not filled the buffer. -/
theorem fill_failed_short {need : Nat} {got data : List UInt8} {err : Option IoError} {e : IoError}
    (h : fill need got data err = .failed e) (hfits : data.length ≤ need - got.length) :
    data.length < need - got.length := by
  refine lt_of_le_of_ne hfits ?_
  intro hlen
  unfold fill at h
  rw [if_pos hlen] at h
  cases h

/-- One read keeps it. -/
theorem Routed.read {phase : Phase} (h : Routed bytes phase) {data : List UInt8}
    {err : Option IoError} (hroom : 0 < phase.room) (hfits : data.length ≤ phase.room) :
    Routed (bytes ++ data) (phase.read lowerRune data err) := by
  cases phase with
  | first =>
      obtain rfl : bytes = [] := h
      have hfits' : data.length ≤ 1 - ([] : List UInt8).length := hfits
      rw [List.nil_append]
      rcases fill_cases err hroom hfits' with ⟨hf, hlen, _⟩ | ⟨hf, hlen, _⟩ | ⟨e, hf, _⟩
      · obtain ⟨b, rfl⟩ := List.length_eq_one_iff.mp hlen
        simp only [Phase.read, hf]
        show Routed [b] (if b = tlsRecordHandshake then .header b [] else enterHead lowerRune [b])
        by_cases htls : b = tlsRecordHandshake
        · rw [if_pos htls]
          exact ⟨htls, rfl, by decide⟩
        · rw [if_neg htls]
          exact routed_enterHead ⟨by simp, by simpa [Tls] using htls⟩
      · simp only [Phase.read, hf]
        exact List.length_eq_zero_iff.mp (Nat.lt_one_iff.mp hlen)
      · simp only [Phase.read, hf]
        exact List.length_eq_zero_iff.mp (Nat.lt_one_iff.mp (fill_failed_short hf hfits'))
  | header b got =>
      obtain ⟨rfl, rfl, hgot⟩ := h
      rw [List.cons_append]
      rcases fill_cases err hroom hfits with ⟨hf, hlen, _⟩ | ⟨hf, hlt, _⟩ | ⟨e, hf, _⟩
      · simp only [Phase.read, hf]
        refine routed_enterRecord ?_
        rw [List.length_append, hlen]
        omega
      · simp only [Phase.read, hf]
        refine ⟨rfl, rfl, ?_⟩
        rw [List.length_append]
        omega
      · simp only [Phase.read, hf]
        have hshort := fill_failed_short hf hfits
        refine routed_failed (fun _ _ => not_firstRecord_header ?_) e
        rw [List.length_cons, List.length_append]
        omega
  | record b hdr recLen got =>
      obtain ⟨rfl, rfl, hhdr, hrec, hgot⟩ := h
      rw [List.cons_append, List.append_assoc]
      rcases fill_cases err hroom hfits with ⟨hf, hlen, _⟩ | ⟨hf, hlt, _⟩ | ⟨e, hf, _⟩
      · simp only [Phase.read, hf]
        refine routed_endRecord hhdr ?_
        rw [hrec, List.length_append, hlen]
        congr 1
        omega
      · simp only [Phase.read, hf]
        refine ⟨rfl, rfl, hhdr, hrec, ?_⟩
        rw [List.length_append]
        omega
      · simp only [Phase.read, hf]
        have hshort := fill_failed_short hf hfits
        refine routed_failed (fun _ _ => not_firstRecord_short hhdr hrec ?_) e
        rw [List.length_append]
        omega
  | head buf =>
      obtain ⟨rfl, hplain⟩ := h
      have hplain' := hplain.mono (List.prefix_append bytes data)
      cases err with
      | some e => exact routed_plain hplain' _ _
      | none =>
          simp only [Phase.read]
          split
          · exact routed_plain hplain' _ _
          · exact routed_enterHead hplain'
  | dialing d | forwarding d | relaying d | closed why | panicked => cases hroom

theorem routed_afterWire {phase : Phase} (h : Routed bytes phase) (e : Relay.Event) :
    Routed bytes (Session.afterWire phase e) := by
  cases e with
  | on d e => exact h
  | teardown =>
      cases phase with
      | relaying d => exact h
      | first | header b got | record b hdr recLen got | head buf | dialing d | forwarding d
      | closed why | panicked => exact h

theorem routed_step {script : Conn} {s s' : Session} {ev : Session.Event}
    (h : Routed script.bytes s.phase) (hstep : Session.step lowerRune s ev = some s') :
    Routed (script ++ s.reads ev : Conn).bytes s'.phase := by
  rcases Session.step_cases hstep with ⟨e, relay, rfl, _, _, rfl⟩ |
    ⟨n, err, rfl, hroom, hfits, hin, rfl⟩ | ⟨d, hphase, ⟨rfl, rfl⟩ | ⟨rfl, rfl⟩⟩ |
    ⟨d, hphase, ⟨rfl, rfl⟩ | ⟨n, rfl, rfl⟩⟩
  · show Routed (script ++ [] : Conn).bytes _
    rw [List.append_nil]
    exact routed_afterWire h e
  · have hread := @Routed.read lowerRune _ s.phase h _ err hroom ((taken_length hin).trans_le hfits)
    show Routed (script ++ [⟨s.taken n, err⟩] : Conn).bytes _
    rw [Source.bytes, List.flatMap_append, List.flatMap_singleton]
    exact hread
  all_goals
    show Routed (script ++ [] : Conn).bytes _
    rw [hphase] at h
    rw [List.append_nil]
    exact h

theorem routed_run {s : Session} {es : List Session.Event}
    (hrun : run (Session.step lowerRune) Session.start es = some s) :
    Routed (Source.bytes (trace (Session.step lowerRune) Session.reads Session.start es))
      s.phase := by
  refine run_from (P := fun hist ρ => Routed
    (Source.bytes (trace (Session.step lowerRune) Session.reads Session.start hist)) ρ.phase)
    ?_ ?_ hrun
  · exact (rfl : ([] : List UInt8) = [])
  · intro hist ρ e ρ' hhist h hstep
    rw [trace_snoc _ hhist]
    exact routed_step h hstep

end Routed

/-! ## Sessions of TLS clients -/

section Sessions

variable {lowerRune : Nat → Nat} {s s' : Session} {hdr recData : List UInt8}

/-- A session of a TLS client. -/
def OfTls (s : Session) : Prop :=
  Tls s.relay.up.sent ∧ ∃ script : Conn, Routed script.bytes s.phase ∧ Taken script s

theorem ofTls_run {es : List (PoolEvent Session.Event)} {pool : List Session} {i : Nat}
    (hrun : run (serverStep lowerRune) [] es = some pool) (hi : pool[i]? = some s)
    (htls : Tls s.relay.up.sent) : OfTls s :=
  have hown := (pool_own hrun).1 i s hi
  ⟨htls, _, routed_run hown, taken_run hown⟩

theorem tls_not_plain {stream : List UInt8} (h : Tls stream) : ¬ Plain stream := fun hp => hp.2 h

theorem OfTls.calm (h : OfTls s) : s.phase ≠ .panicked := by
  obtain ⟨htls, script, hrouted, htaken⟩ := h
  intro hphase
  rw [hphase] at hrouted
  exact tls_not_plain htls (Plain.mono hrouted htaken.1)

theorem OfTls.routes (h : OfTls s) {d : Dialled} (hd : dialled s.phase = some d) :
    RoutesTo s.relay.up.sent d := by
  obtain ⟨htls, script, hrouted, htaken⟩ := h
  rcases hrouted.at_dial hd with hplain | hroutes
  · exact absurd (hplain.mono htaken.1) (tls_not_plain htls)
  · exact hroutes.mono htaken.1

theorem OfTls.nameless (h : OfTls s) (hphase : s.phase = .closed (.noHost none)) :
    Nameless s.relay.up.sent := by
  obtain ⟨htls, script, hrouted, htaken⟩ := h
  rw [hphase] at hrouted
  rcases hrouted with hplain | hnameless
  · exact absurd (hplain.mono htaken.1) (tls_not_plain htls)
  · exact hnameless.mono htaken.1

theorem session_sent_grows {ev : Session.Event} (h : Session.step lowerRune s ev = some s') :
    s.relay.up.sent <+: s'.relay.up.sent := by
  rcases Session.step_cases h with ⟨e, relay, rfl, _, hrelay, rfl⟩ | ⟨n, err, rfl, _, _, _, rfl⟩ |
    ⟨d, _, ⟨rfl, rfl⟩ | ⟨rfl, rfl⟩⟩ | ⟨d, _, ⟨rfl, rfl⟩ | ⟨n, rfl, rfl⟩⟩
  · exact sent_grows hrelay
  all_goals exact List.prefix_rfl

theorem Tls.mono {stream stream' : List UInt8} (h : Tls stream) (hmore : stream <+: stream') :
    Tls stream' := by
  obtain ⟨more, rfl⟩ := hmore
  cases stream with
  | nil => cases h
  | cons b rest => exact h

theorem OfTls.step {ev : Session.Event} (h : OfTls s)
    (hstep : Session.step lowerRune s ev = some s') : OfTls s' := by
  obtain ⟨htls, script, hrouted, htaken⟩ := h
  exact ⟨htls.mono (session_sent_grows hstep), _, routed_step hrouted hstep, htaken.step hstep⟩

/-! ## Reading the record to its end -/

/-- A read of the session that does not fail. -/
def CleanRead (e : Session.Event) : Prop := ∃ n, e = .read n none

/-- A read that takes what there is room for and has arrived. -/
theorem clean_read {n : Nat} (hpos : 0 < s.phase.room) (hroom : n ≤ s.phase.room)
    (hin : n ≤ s.relay.up.inbound.length) :
    ∃ s', Session.step lowerRune s (.read n none) = some s' ∧
      s'.phase = s.phase.read lowerRune (s.relay.up.inbound.take n) none ∧
      s'.relay.up.inbound = s.relay.up.inbound.drop n := by
  refine ⟨_, if_pos ?_, rfl, rfl⟩
  exact decide_eq_true ⟨hpos, hroom, hin, fun he => by cases he⟩

/-- By reading, the session takes itself to a phase: all it needs has been sent. -/
def Towards (lowerRune : Nat → Nat) (s : Session) (phase : Phase) : Prop :=
  ∃ es s', (∀ e ∈ es, CleanRead e) ∧ run (Session.step lowerRune) s es = some s' ∧
    s'.phase = phase

theorem Towards.step {phase : Phase} {n : Nat}
    (hstep : Session.step lowerRune s (.read n none) = some s')
    (h : Towards lowerRune s' phase) : Towards lowerRune s phase := by
  obtain ⟨es, s'', hreads, hrun, hphase⟩ := h
  refine ⟨.read n none :: es, s'', ?_, run_cons.mpr ⟨s', hstep, hrun⟩, hphase⟩
  exact List.forall_mem_cons.mpr ⟨⟨n, rfl⟩, hreads⟩

theorem Towards.here {phase : Phase} (h : s.phase = phase) : Towards lowerRune s phase :=
  ⟨[], s, List.forall_mem_nil _, rfl, h⟩

/-- A buffer that starts with `got` and is filled up to `want`. -/
theorem filled_up {got inbound want more : List UInt8} (h : got ++ inbound = want ++ more)
    (hgot : got.length ≤ want.length) :
    got ++ inbound.take (want.length - got.length) = want ∧
      inbound.drop (want.length - got.length) = more ∧
      (inbound.take (want.length - got.length)).length = want.length - got.length := by
  have htake := congrArg (List.take want.length) h
  have hdrop := congrArg (List.drop want.length) h
  have hlen := congrArg List.length h
  rw [List.take_append, List.take_of_length_le hgot, List.take_left] at htake
  rw [List.drop_append, List.drop_of_length_le hgot, List.nil_append, List.drop_left] at hdrop
  rw [List.length_append, List.length_append] at hlen
  refine ⟨htake, hdrop, ?_⟩
  rw [List.length_take]
  omega

theorem towards_from_record {got more : List UInt8}
    (hphase : s.phase = .record tlsRecordHandshake hdr recData.length got)
    (hin : got ++ s.relay.up.inbound = recData ++ more) (hgot : got.length < recData.length) :
    Towards lowerRune s (endRecord tlsRecordHandshake hdr recData) := by
  have hroom : s.phase.room = recData.length - got.length := by rw [hphase, room]
  obtain ⟨hfull, _, hlen⟩ := filled_up hin hgot.le
  have hle := List.length_take_le' (recData.length - got.length) s.relay.up.inbound
  obtain ⟨s', hstep, hnext, _⟩ := @clean_read lowerRune s (recData.length - got.length) (by omega)
    (by omega) (by omega)
  refine Towards.step hstep (Towards.here ?_)
  rw [hnext, hphase, Phase.read, fill, if_pos hlen, hfull]

theorem towards_from_header {got more : List UInt8}
    (hphase : s.phase = .header tlsRecordHandshake got) (hgot : got.length < tlsRecordHdrTail)
    (hhdr : hdr.length = tlsRecordHdrTail)
    (hrec : (uint16At hdr tlsRecordLenOffset).map UInt16.toNat = some recData.length)
    (hin : got ++ s.relay.up.inbound = hdr ++ (recData ++ more)) :
    Towards lowerRune s (endRecord tlsRecordHandshake hdr recData) := by
  have hroom : s.phase.room = hdr.length - got.length := by rw [hphase, room, hhdr]
  obtain ⟨hfull, hrest, hlen⟩ := filled_up hin (by omega)
  have hle := List.length_take_le' (hdr.length - got.length) s.relay.up.inbound
  obtain ⟨s', hstep, hnext, hinbound⟩ := @clean_read lowerRune s (hdr.length - got.length)
    (by omega) (by omega) (by omega)
  refine Towards.step hstep ?_
  rw [hphase, Phase.read, fill, ← hhdr, if_pos hlen, hfull] at hnext
  rw [hrest] at hinbound
  obtain ⟨recLen, hat, hlength⟩ := Option.map_eq_some_iff.mp hrec
  simp only [enterRecord, hat] at hnext
  by_cases hzero : recLen.toNat = 0
  · rw [if_pos hzero] at hnext
    rw [hlength, List.length_eq_zero_iff] at hzero
    subst hzero
    exact Towards.here hnext
  · rw [if_neg hzero, hlength] at hnext
    exact towards_from_record hnext hinbound (by rw [← hlength]; exact Nat.pos_of_ne_zero hzero)

theorem towards_from_first {more : List UInt8} (hphase : s.phase = .first)
    (hhdr : hdr.length = tlsRecordHdrTail)
    (hrec : (uint16At hdr tlsRecordLenOffset).map UInt16.toNat = some recData.length)
    (hin : s.relay.up.inbound = tlsRecordHandshake :: (hdr ++ (recData ++ more))) :
    Towards lowerRune s (endRecord tlsRecordHandshake hdr recData) := by
  have hroom : s.phase.room = 1 := by rw [hphase, room]
  obtain ⟨s', hstep, hnext, hinbound⟩ := @clean_read lowerRune s 1 (by omega) (by omega)
    (by rw [hin, List.length_cons]; omega)
  refine Towards.step hstep ?_
  rw [hphase, hin] at hnext
  rw [hin] at hinbound
  have hheader : s'.phase = .header tlsRecordHandshake [] := hnext
  exact towards_from_header hheader (by decide) hhdr hrec hinbound

/-- A session that waits comes to the end of a record that has been sent. -/
theorem OfTls.towards (h : OfTls s) (hwaits : s.phase.settled = false)
    (hrec : FirstRecord s.relay.up.sent hdr recData) :
    Towards lowerRune s (endRecord tlsRecordHandshake hdr recData) := by
  obtain ⟨htls, script, hrouted, htaken⟩ := h
  obtain ⟨more, hmore⟩ := hrec.starts
  have hsent := htaken.2 hwaits
  rw [← hmore, List.cons_append, List.append_assoc] at hsent
  cases hphase : s.phase with
  | first =>
      rw [hphase] at hrouted
      have hnil : script.bytes = [] := hrouted
      rw [hnil, List.nil_append] at hsent
      exact towards_from_first hphase hrec.header hrec.declared hsent
  | header b got =>
      rw [hphase] at hrouted
      obtain ⟨rfl, hbytes, hgot⟩ := hrouted
      rw [hbytes, List.cons_append] at hsent
      exact towards_from_header hphase hgot hrec.header hrec.declared (List.cons.inj hsent).2
  | record b hdr' recLen got =>
      rw [hphase] at hrouted
      obtain ⟨rfl, hbytes, hhdr', hrec', hgot⟩ := hrouted
      rw [hbytes, List.cons_append, List.append_assoc] at hsent
      obtain ⟨rfl, hin⟩ := List.append_inj (List.cons.inj hsent).2 (hhdr'.trans hrec.header.symm)
      obtain rfl := Option.some.inj (hrec'.symm.trans hrec.declared)
      exact towards_from_record hphase hin hgot
  | head buf =>
      rw [hphase] at hrouted
      exact absurd (hrouted.2.mono htaken.1) (tls_not_plain htls)
  | dialing d | forwarding d | relaying d | closed why | panicked =>
      rw [hphase] at hwaits
      cases hwaits

end Sessions

/-- **A TLS session is routed by its client's first record.** Take two sessions of any
two runs, where the second client has sent what the first one has sent, and possibly
more: however the bytes were read and whatever else went on, neither of them has
panicked; where the first one was dialled the second is dialled to the same target with
the same peeked bytes or not at all, and has not been turned away for want of a name;
and where the first one was turned away for that reason, the second is not dialled. -/
theorem tls_routing (lowerRune : Nat → Nat) (es es' : List (PoolEvent Session.Event))
    (pool pool' : List Session) (hrun : run (serverStep lowerRune) [] es = some pool)
    (hrun' : run (serverStep lowerRune) [] es' = some pool') (i j : Nat) (s s' : Session)
    (hi : pool[i]? = some s) (hj : pool'[j]? = some s') (htls : Tls s.relay.up.sent)
    (hsame : s.relay.up.sent <+: s'.relay.up.sent) :
    s.phase ≠ .panicked ∧ s'.phase ≠ .panicked ∧
      (∀ d, dialled s.phase = some d →
        s'.phase ≠ .closed (.noHost none) ∧ ∀ d', dialled s'.phase = some d' → d' = d) ∧
      (s.phase = .closed (.noHost none) → dialled s'.phase = none) := by
  have h := ofTls_run hrun hi htls
  have h' := ofTls_run hrun' hj (htls.mono hsame)
  refine ⟨h.calm, h'.calm, ?_, ?_⟩
  · intro d hd
    have hroutes := (h.routes hd).mono hsame
    refine ⟨fun hphase => hroutes.named (h'.nameless hphase), ?_⟩
    intro d' hd'
    exact (h'.routes hd').unique hroutes
  · intro hphase
    rw [Option.eq_none_iff_forall_ne_some]
    intro d' hd'
    exact (h'.routes hd').named ((h.nameless hphase).mono hsame)

/-! ## A ClientHello -/

theorem hello_firstRecord (r : HelloRecord) :
    FirstRecord r.bytes (r.version ++ be16 r.payload.length) r.payload := by
  have hfits := r.fits
  have hlen := r.payload_length
  have hat := uint16At_at r.version [] (UInt16.ofNat r.payload.length)
  rw [List.append_nil, r.version_length] at hat
  refine ⟨List.prefix_rfl, ?_, ?_⟩
  · rw [List.length_append, r.version_length, be16_length]
    rfl
  · show (uint16At (r.version ++ be16 r.payload.length) 2).map UInt16.toNat = _
    rw [be16, hat, Option.map_some, UInt16.toNat_ofNat_of_lt' (by rw [UInt16.size]; omega)]

/-- A session that has a ClientHello goes nowhere else. -/
theorem hello_dial {lowerRune : Nat → Nat} {es : List (PoolEvent Session.Event)}
    {pool : List Session} (hrun : run (serverStep lowerRune) [] es = some pool) {i : Nat}
    {s : Session} (hi : pool[i]? = some s) {r : HelloRecord} {host : GoString}
    (ha : r.hello.Announces host) (hne : host ≠ []) (hsent : r.bytes <+: s.relay.up.sent) :
    OfTls s ∧ s.phase ≠ .closed (.noHost none) ∧
      ∀ d, dialled s.phase = some d → d = ⟨dialTarget host httpsPort, r.bytes⟩ := by
  have hrec := (hello_firstRecord r).mono hsent
  have hroutes : RoutesTo s.relay.up.sent ⟨dialTarget host httpsPort, r.bytes⟩ :=
    ⟨_, _, host, hrec, recordHost_payload ha, hne, rfl⟩
  have htls : Tls r.bytes := rfl
  have h := ofTls_run hrun hi (htls.mono hsent)
  refine ⟨h, fun hphase => hroutes.named (h.nameless hphase), ?_⟩
  intro d hd
  exact (h.routes hd).unique hroutes

/-- **A ClientHello is routed to the host it announces.** In every run of the proxy, a
session whose client has sent a ClientHello for a host, and whatever follows it: it has
not panicked and was not turned away for want of a name, if it was dialled then to that
host with the ClientHello as its peeked bytes, and as long as it waits for reads, its
own reads alone take it there, whatever the other sessions do and without another byte
from its client. -/
theorem hello_routed (lowerRune : Nat → Nat) (es : List (PoolEvent Session.Event))
    (pool : List Session) (hrun : run (serverStep lowerRune) [] es = some pool) (i : Nat)
    (s : Session) (hi : pool[i]? = some s) (r : HelloRecord) (host : GoString)
    (ha : r.hello.Announces host) (hne : host ≠ []) (hsent : r.bytes <+: s.relay.up.sent) :
    s.phase ≠ .panicked ∧ s.phase ≠ .closed (.noHost none) ∧
      (∀ d, dialled s.phase = some d → d = ⟨dialTarget host httpsPort, r.bytes⟩) ∧
      ((∀ t ∈ pool, t.phase ≠ .panicked) → s.phase.settled = false →
        ∃ (own : List Session.Event) (s' : Session), (∀ e ∈ own, CleanRead e) ∧
          run (serverStep lowerRune) pool (own.map (.on i)) = some (pool.set i s') ∧
          s'.phase = .dialing ⟨dialTarget host httpsPort, r.bytes⟩) := by
  obtain ⟨h, hnamed, hdial⟩ := hello_dial hrun hi ha hne hsent
  refine ⟨h.calm, hnamed, hdial, ?_⟩
  intro halive hwaits
  have hrec := (hello_firstRecord r).mono hsent
  obtain ⟨own, s', hreads, hown, hphase⟩ := @OfTls.towards lowerRune s _ _ h hwaits hrec
  have hcalm : ∀ t ∈ pool, t.fatal = false := fun t ht => decide_eq_false (halive t ht)
  refine ⟨own, s', hreads, ?_, ?_⟩
  · exact pool_plays (P := OfTls) hcalm hi (fun t ht => decide_eq_false ht.calm)
      (fun t e t' ht hstep => ht.step hstep) h hown
  · rw [hphase, endRecord, recordHost_payload ha, Option.map_some, settle,
      if_neg (by simp [hne])]
    rfl

/-! ## A sample -/

/-- A client that has sent its ClientHello, of which one byte has been read, and another
one that has sent it together with more, and is dialled. -/
def helloClients : List (PoolEvent Session.Event) :=
  [.spawn, .spawn, .on 0 (.wire (.on .up (.send sampleRecord.bytes))), .on 0 (.read 1 none),
    .on 1 (.wire (.on .up (.send (sampleRecord.bytes ++ [0x17])))), .on 1 (.read 1 none),
    .on 1 (.read 4 none), .on 1 (.read (sampleRecord.bytes.length - 5) none)]

def helloWaits : Session :=
  ⟨.header tlsRecordHandshake [],
    ⟨⟨sampleRecord.bytes, sampleRecord.bytes.tail, false, [], [], false, false⟩,
      ⟨[], [], false, [], [], false, false⟩, false⟩⟩

def helloDials : Session :=
  ⟨.dialing ⟨ascii "a.io:443", sampleRecord.bytes⟩,
    ⟨⟨sampleRecord.bytes ++ [0x17], [0x17], false, [], [], false, false⟩,
      ⟨[], [], false, [], [], false, false⟩, false⟩⟩

theorem helloClients_run : run (serverStep id) [] helloClients = some [helloWaits, helloDials] := by
  decide +kernel

/-- Another run: a client that has sent more than the two, read in other pieces. -/
def slowClient : List (PoolEvent Session.Event) :=
  [.spawn, .on 0 (.wire (.on .up (.send (sampleRecord.bytes ++ [0x17, 0x03])))),
    .on 0 (.read 1 none), .on 0 (.read 3 none), .on 0 (.read 1 none), .on 0 (.read 10 none),
    .on 0 (.read (sampleRecord.bytes.length - 15) none)]

def slowDials : Session :=
  ⟨.dialing ⟨ascii "a.io:443", sampleRecord.bytes⟩,
    ⟨⟨sampleRecord.bytes ++ [0x17, 0x03], [0x17, 0x03], false, [], [], false, false⟩,
      ⟨[], [], false, [], [], false, false⟩, false⟩⟩

theorem slowClient_run : run (serverStep id) [] slowClient = some [slowDials] := by
  decide +kernel

/-- The clients of both runs that are dialled are dialled to one target. -/
theorem tls_routing_hello :
    helloWaits.phase ≠ .panicked ∧ slowDials.phase ≠ .panicked ∧
      slowDials.phase ≠ .closed (.noHost none) ∧
      ∀ d d', dialled helloDials.phase = some d → dialled slowDials.phase = some d' → d' = d := by
  have hwaits := tls_routing id helloClients slowClient _ _ helloClients_run slowClient_run 0 0
    helloWaits slowDials rfl rfl rfl (List.prefix_append _ _)
  have hdials := tls_routing id helloClients slowClient _ _ helloClients_run slowClient_run 1 0
    helloDials slowDials rfl rfl rfl ⟨[0x03], by rw [helloDials, slowDials]; simp⟩
  obtain ⟨_, hcalm, hsame, _⟩ := hdials
  exact ⟨hwaits.1, hcalm, (hsame _ rfl).1, fun d d' hd hd' => (hsame d hd).2 d' hd'⟩

theorem hello_routed_sample :
    ∃ (own : List Session.Event) (s' : Session), (∀ e ∈ own, CleanRead e) ∧
      run (serverStep id) [helloWaits, helloDials] (own.map (.on 0)) = some [s', helloDials] ∧
      s'.phase = .dialing ⟨dialTarget (ascii "a.io") httpsPort, sampleRecord.bytes⟩ :=
  (hello_routed id helloClients _ helloClients_run 0 helloWaits rfl sampleRecord _
    sampleHello_announces (by decide) List.prefix_rfl).2.2.2 (by decide +kernel) rfl

end AiInterceptor.Theorems.TlsRouting
