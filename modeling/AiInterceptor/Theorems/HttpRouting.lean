import AiInterceptor.Theorems.RequestHead
import AiInterceptor.Theorems.Segmentation
import AiInterceptor.Theorems.TlsRouting

/-!
# Where an HTTP session goes

An HTTP session is routed by what it has read when its loop stops, which reaches past
the head by as much as the last read brought in, and stays short of it when a read
fails. `Asked` says for every phase what was read by then. For a legal request head it
makes no difference how much more there is: the head's first empty line is its last
one, so that reads that do not fail bring it in whole, and the Host field is found in
it whatever follows (`request_routed`).
-/

namespace AiInterceptor.Theorems.HttpRouting

open Lib Go Proxy Proxy.Phase Sessions HostHeader RequestHead Segmentation TlsRouting

/-! ## A head at the start of a stream -/

/-- Lines with text in them hold no empty line. -/
theorem indexOf_headEnd {lines : List (List UInt8)} (hlines : ∀ l ∈ lines, 0x0D ∉ l ∧ l ≠ [])
    (rest : List UInt8) :
    indexOf (broken lines ++ headEnd ++ rest) headEnd = some (broken lines).length := by
  induction lines with
  | nil => exact indexOf_zero (List.prefix_append headEnd rest)
  | cons l lines ih =>
      obtain ⟨hcr, hne⟩ := hlines l List.mem_cons_self
      have ih := ih fun l hl => hlines l (List.mem_cons_of_mem _ hl)
      -- the line break is followed by the line's first byte, which is not a CR
      have hstart : ¬ headEnd <+: 0x0D :: (0x0A :: l ++ (broken lines ++ headEnd ++ rest)) := by
        cases l with
        | nil => exact absurd rfl hne
        | cons c l =>
            intro hp
            simp only [headEnd, List.cons_append, List.cons_prefix_cons] at hp
            obtain ⟨_, _, rfl, _⟩ := hp
            exact hcr List.mem_cons_self
      have hskip : 0x0D ∉ (0x0A :: l : List UInt8) := by simp [hcr]
      have hsplit : broken (l :: lines) ++ headEnd ++ rest =
          0x0D :: (0x0A :: l ++ (broken lines ++ headEnd ++ rest)) := by simp [crlf]
      rw [hsplit, indexOf_cons hstart, headEnd, indexOf_append hskip]
      rw [headEnd] at ih
      rw [ih, Option.map_some, Option.map_some, broken_cons]
      simp only [crlf, List.length_append, List.length_cons, List.length_nil, Option.some.injEq]
      omega

section Head

variable {h : Head} {data stream : List UInt8}

theorem bytes_headEnd (h : Head) :
    h.bytes = h.requestLine ++ (broken (h.fields.map Field.line) ++ headEnd) := by
  rw [Head.bytes_eq, broken_append]
  rfl

/-- A head ends at the first empty line. -/
theorem head_ends (hstarts : h.bytes <+: stream) :
    (∃ i, indexOf stream headEnd = some i) ∧ headLength stream = h.bytes.length := by
  obtain ⟨rest, rfl⟩ := hstarts
  have hline : 0x0D ∉ h.requestLine := fun hcr => (h.requestLine_inLine _ hcr).2.1 rfl
  have hfields : ∀ l ∈ h.fields.map Field.line, 0x0D ∉ l ∧ l ≠ [] := by
    intro l hl
    obtain ⟨f, _, rfl⟩ := List.mem_map.mp hl
    refine ⟨fun hcr => (f.line_inLine _ hcr).2.1 rfl, ?_⟩
    simp [Field.line]
  have hfound := indexOf_headEnd hfields rest
  have hat : indexOf (h.bytes ++ rest) headEnd =
      some ((broken (h.fields.map Field.line)).length + h.requestLine.length) := by
    rw [bytes_headEnd, List.append_assoc, headEnd, indexOf_append hline]
    rw [headEnd] at hfound
    rw [hfound, Option.map_some]
  refine ⟨⟨_, hat⟩, ?_⟩
  rw [headLength, hat, Option.map_some, Option.getD_some, bytes_headEnd, List.length_append,
    List.length_append]
  omega

/-- The loop sees the end of the head once it has read it, and not before. -/
theorem head_read_iff (hstarts : h.bytes <+: stream) (hdata : data <+: stream) :
    contains data headEnd = true ↔ h.bytes <+: data := by
  obtain ⟨hend, hlength⟩ := head_ends hstarts
  rw [List.prefix_iff_eq_take.mp hdata, contains_headEnd, hlength]
  constructor
  · intro hle
    rw [← List.prefix_iff_eq_take.mp hdata]
    exact List.prefix_of_prefix_length_le hstarts hdata (by simpa using hle.2)
  · intro hwhole
    refine ⟨hend, ?_⟩
    have hle := hwhole.length_le
    rw [List.length_take] at hle
    omega

/-- The search stops at the Host field, whatever follows the head. -/
theorem hostAt_whole (hspace : h.host.content.head? = some 0x20) (hstarts : h.bytes <+: data) :
    hostAt data = some h.front.length := by
  have hkey : hostKey <+: h.host.line.map lowerByte :=
    h.host.hostKey_prefix_iff.mpr ⟨h.host_isHost, hspace⟩
  have hat : hostAt h.bytes = some h.front.length := by
    rw [h.hostAt_front, needle_eq, List.map_cons, indexOf_broken_hit hkey, Option.map_some,
      Nat.zero_add]
  rw [List.prefix_iff_eq_take.mp hstarts, hostAt_take, Option.filter_eq_some_iff] at hat
  exact hat.1

/-- What stands in front of the Host field keeps its length in lower case. -/
theorem front_keeps_length (lowerRune : Nat → Nat) (hstarts : h.bytes <+: data) :
    loweredLength lowerRune data h.front.length = h.front.length := by
  have hfront : data.take h.front.length = h.front := by
    obtain ⟨rest, rfl⟩ := hstarts
    rw [h.bytes_front, List.append_assoc, List.take_left]
  have hascii : (h.front.all fun b => b.toNat < runeSelf) = true := by
    rw [List.all_eq_true]
    intro b hb
    refine decide_eq_true (h.bytes_ascii b ?_)
    rw [h.bytes_front]
    exact List.mem_append_left _ hb
  rw [loweredLength, hfront, toLower, if_pos hascii, List.length_map]

/-- A whole head is looked up right, whatever follows it. -/
theorem parse_whole {lowerRune : Nat → Nat} (hlower : AsciiOnly lowerRune needle)
    (hspace : h.host.content.head? = some 0x20) (hstarts : h.bytes <+: data) :
    parseHostHeader lowerRune data = some h.host.value := by
  have hat := hostAt_whole hspace hstarts
  obtain ⟨content, hcontent, hcr, htrim⟩ := h.host.content_space hspace
  obtain ⟨rest, hrest⟩ : ∃ rest, broken (h.after.map Field.line ++ [[], []]) = 0x0D :: rest := by
    cases h.after with
    | nil => exact ⟨_, rfl⟩
    | cons f fs => exact ⟨_, rfl⟩
  have hin : h.front.length + needle.length ≤ h.bytes.length :=
    hostAt_le (hostAt_whole hspace List.prefix_rfl)
  have hdrop := h.drop_needle hcontent
  rw [parseHostHeader_found hlower hat, front_keeps_length lowerRune hstarts,
    if_pos (hin.trans hstarts.length_le), ← htrim]
  obtain ⟨more, rfl⟩ := hstarts
  congr 1
  refine @fieldAt_line _ content (rest ++ more) _ ?_ hcr
  rw [List.drop_append_of_le_length hin, hdrop, hrest, List.append_assoc, List.cons_append]

/-- Part of a head is ASCII text. -/
theorem parse_part (lowerRune : Nat → Nat) (hpart : data <+: h.bytes) :
    parseHostHeader lowerRune data = some (hostField data) :=
  parseHostHeader_ascii fun c hc => h.bytes_ascii c (hpart.subset hc)

end Head

/-! ## Phases and what was read by then -/

/-- No read has failed. -/
def Clean (script : Conn) : Prop := ∀ c ∈ script, c.err = none

/-- The loop stops here without a failure. -/
def Ample (bytes : List UInt8) : Prop :=
  contains bytes headEnd = true ∨ httpMaxHeaderBuf ≤ bytes.length

/-- The dial that what was read leads to. -/
structure Asks (lowerRune : Nat → Nat) (script : Conn) (d : Dialled) : Prop where
  peeked : d.peeked = script.bytes
  target : ∃ host, parseHostHeader lowerRune script.bytes = some host ∧
    d.target = dialTarget host httpPort
  ample : Clean script → Ample script.bytes

/-- What an HTTP session has read in each phase; the others it does not come to. -/
def Asked (lowerRune : Nat → Nat) (script : Conn) : Phase → Prop
  | .head buf => script.bytes = buf ∧ contains buf headEnd = false
  | .dialing d | .forwarding d | .relaying d => Asks lowerRune script d
  | .closed (.dial d) | .closed (.forward d) | .closed (.relayed d) => Asks lowerRune script d
  | .closed (.noHost _) =>
      parseHostHeader lowerRune script.bytes = some [] ∧ (Clean script → Ample script.bytes)
  | .panicked => parseHostHeader lowerRune script.bytes = none
  | .first | .header .. | .record .. | .closed (.firstRead _) => False

/-- The same for any session, if it turns out to be one of HTTP. -/
structure Heard (lowerRune : Nat → Nat) (script : Conn) (phase : Phase) : Prop where
  silent : script.bytes = [] → Clean script → phase = .first
  asked : Plain script.bytes → Asked lowerRune script phase

section Asked

variable {lowerRune : Nat → Nat} {script : Conn} {s s' : Session} {buf : List UInt8}

theorem Asked.asks {phase : Phase} (h : Asked lowerRune script phase) {d : Dialled}
    (hd : dialled phase = some d) : Asks lowerRune script d := by
  rcases dialled_cases hd with rfl | rfl | rfl | rfl | rfl | rfl
  all_goals exact h

theorem asked_endHead (hbuf : script.bytes = buf) (err : Option IoError)
    (hample : Clean script → Ample buf) :
    Asked lowerRune script (endHead lowerRune buf err) := by
  subst hbuf
  rw [endHead]
  cases hparse : parseHostHeader lowerRune script.bytes with
  | none => exact hparse
  | some host =>
      rw [Option.map_some, settle]
      by_cases hhost : host = []
      · rw [if_pos (.inr hhost)]
        exact ⟨hhost ▸ hparse, hample⟩
      · rw [if_neg (by simp [hhost])]
        exact ⟨rfl, ⟨host, hparse, rfl⟩, hample⟩

theorem asked_enterHead (hbuf : script.bytes = buf) (hmore : contains buf headEnd = false) :
    Asked lowerRune script (enterHead lowerRune buf) := by
  unfold enterHead
  split
  · exact ⟨hbuf, hmore⟩
  · rename_i hlen
    exact asked_endHead hbuf none fun _ => .inr (Nat.le_of_not_lt hlen)

theorem bytes_snoc (script : Conn) (data : List UInt8) (err : Option IoError) :
    (script ++ [⟨data, err⟩] : Conn).bytes = script.bytes ++ data := by
  rw [Source.bytes, List.flatMap_append, List.flatMap_singleton]
  rfl

/-- The first byte opens the loop, unless it is that of a TLS record. -/
theorem asked_first {data : List UInt8} {err : Option IoError} (hdata : data.length ≤ 1)
    (hplain : Plain data) (hbytes : script.bytes = data) :
    Asked lowerRune script (Phase.first.read lowerRune data err) := by
  have hpos := List.length_pos_of_ne_nil hplain.1
  obtain ⟨b, rfl⟩ := List.length_eq_one_iff.mp (Nat.le_antisymm hdata hpos)
  have hnext : Phase.first.read lowerRune [b] err =
      if b = tlsRecordHandshake then .header b [] else enterHead lowerRune [b] := rfl
  have htls : b ≠ tlsRecordHandshake := by simpa [Tls] using hplain.2
  rw [hnext, if_neg htls]
  refine asked_enterHead hbytes ?_
  rw [contains, headEnd, indexOf_cons (by simp), indexOf_nil_cons]
  rfl

/-- One turn of the loop. -/
theorem asked_head {data : List UInt8} {err : Option IoError} (hbytes : script.bytes = buf ++ data)
    (hclean : Clean script → err = none) :
    Asked lowerRune script ((Phase.head buf).read lowerRune data err) := by
  cases err with
  | some e => exact asked_endHead hbytes _ fun hc => by cases hclean hc
  | none =>
      simp only [Phase.read]
      split
      · rename_i hend
        exact asked_endHead hbytes none fun _ => .inl hend
      · rename_i hend
        exact asked_enterHead hbytes (Bool.eq_false_iff.mpr hend)

/-- One read keeps it. -/
theorem Heard.read {phase : Phase} (hrouted : Routed script.bytes phase)
    (h : Heard lowerRune script phase) {data : List UInt8} {err : Option IoError}
    (hroom : 0 < phase.room) (hfits : data.length ≤ phase.room) :
    Heard lowerRune (script ++ [⟨data, err⟩]) (phase.read lowerRune data err) := by
  have hbytes := bytes_snoc script data err
  have hclean : Clean (script ++ [⟨data, err⟩]) → Clean script ∧ err = none := by
    intro hc
    exact ⟨fun c hmem => hc c (List.mem_append_left _ hmem),
      hc _ (List.mem_append_right _ List.mem_cons_self)⟩
  refine ⟨?_, ?_⟩
  · intro hnil hall
    obtain ⟨hsofar, rfl⟩ := hclean hall
    rw [hbytes, List.append_eq_nil_iff] at hnil
    obtain ⟨hnil, rfl⟩ := hnil
    rw [h.silent hnil hsofar]
    rfl
  · intro hplain
    rw [hbytes] at hplain
    cases phase with
    | first =>
        have hnil : script.bytes = [] := hrouted
        rw [hnil, List.nil_append] at hplain hbytes
        exact asked_first hfits hplain hbytes
    | header b got | record b hdr recLen got =>
        -- the first byte was that of a TLS record
        obtain ⟨rfl, hsofar, _⟩ := hrouted
        rw [hsofar] at hplain
        exact absurd rfl hplain.2
    | head buf =>
        obtain ⟨rfl, _⟩ := h.asked hrouted.2
        exact asked_head hbytes fun hc => (hclean hc).2
    | dialing d | forwarding d | relaying d | closed why | panicked => cases hroom

theorem heard_afterWire {phase : Phase} (h : Heard lowerRune script phase) (e : Relay.Event) :
    Heard lowerRune script (Session.afterWire phase e) := by
  cases e with
  | on d e => exact h
  | teardown =>
      cases phase with
      | relaying d => exact ⟨fun hnil hc => (by cases h.silent hnil hc), h.asked⟩
      | first | header b got | record b hdr recLen got | head buf | dialing d | forwarding d
      | closed why | panicked => exact h

theorem heard_step {ev : Session.Event} (hrouted : Routed script.bytes s.phase)
    (h : Heard lowerRune script s.phase) (hstep : Session.step lowerRune s ev = some s') :
    Heard lowerRune (script ++ s.reads ev) s'.phase := by
  rcases Session.step_cases hstep with ⟨e, relay, rfl, _, _, rfl⟩ |
    ⟨n, err, rfl, hroom, hfits, hin, rfl⟩ | ⟨d, hphase, ⟨rfl, rfl⟩ | ⟨rfl, rfl⟩⟩ |
    ⟨d, hphase, ⟨rfl, rfl⟩ | ⟨n, rfl, rfl⟩⟩
  · show Heard lowerRune (script ++ []) _
    rw [List.append_nil]
    exact heard_afterWire h e
  · exact h.read hrouted hroom ((taken_length hin).trans_le hfits)
  all_goals
    show Heard lowerRune (script ++ []) _
    rw [hphase] at h
    rw [List.append_nil]
    exact ⟨fun hnil hc => (by cases h.silent hnil hc), h.asked⟩

theorem heard_run {es : List Session.Event}
    (hrun : run (Session.step lowerRune) Session.start es = some s) :
    Heard lowerRune (trace (Session.step lowerRune) Session.reads Session.start es) s.phase := by
  refine run_from (P := fun hist ρ => Heard lowerRune
    (trace (Session.step lowerRune) Session.reads Session.start hist) ρ.phase) ?_ ?_ hrun
  · exact ⟨fun _ _ => rfl, fun hplain => absurd rfl hplain.1⟩
  · intro hist ρ e ρ' hhist h hstep
    rw [trace_snoc _ hhist]
    exact heard_step (routed_run hhist) h hstep

end Asked

/-! ## Sessions of clients with a request -/

/-- A session whose client has sent a request head, with its reads so far. -/
structure OfRequest (lowerRune : Nat → Nat) (h : Head) (script : Conn) (s : Session) : Prop where
  starts : h.bytes <+: s.relay.up.sent
  routed : Routed script.bytes s.phase
  heard : Heard lowerRune script s.phase
  taken : Taken script s

section Request

variable {lowerRune : Nat → Nat} {h : Head} {script : Conn} {s s' : Session}

theorem ofRequest_run {es : List (PoolEvent Session.Event)} {pool : List Session} {i : Nat}
    (hrun : run (serverStep lowerRune) [] es = some pool) (hi : pool[i]? = some s)
    (hsent : h.bytes <+: s.relay.up.sent) : OfRequest lowerRune h (scriptOf lowerRune es i) s :=
  have hown := (pool_own hrun).1 i s hi
  ⟨hsent, routed_run hown, heard_run hown, taken_run hown⟩

theorem OfRequest.step {ev : Session.Event} (ho : OfRequest lowerRune h script s)
    (hstep : Session.step lowerRune s ev = some s') :
    OfRequest lowerRune h (script ++ s.reads ev) s' :=
  ⟨ho.starts.trans (session_sent_grows hstep), routed_step ho.routed hstep,
    heard_step ho.routed ho.heard hstep, ho.taken.step hstep⟩

/-- What was read is part of the head, or starts with it. -/
theorem OfRequest.part_or_whole (ho : OfRequest lowerRune h script s) :
    script.bytes <+: h.bytes ∨ h.bytes <+: script.bytes :=
  List.prefix_or_prefix_of_prefix ho.taken.1 ho.starts

theorem OfRequest.not_tls (ho : OfRequest lowerRune h script s) (hfirst : Plain h.bytes) :
    ¬ Tls script.bytes :=
  fun htls => (hfirst.mono ho.starts).2 (htls.mono ho.taken.1)

/-- Neither part of a head nor a whole one makes the lookup panic. -/
theorem OfRequest.calm (ho : OfRequest lowerRune h script s)
    (hlower : AsciiOnly lowerRune needle) (hspace : h.host.content.head? = some 0x20) :
    s.phase ≠ .panicked := by
  intro hphase
  have hrouted := ho.routed
  have hheard := ho.heard
  rw [hphase] at hrouted hheard
  have hnone : parseHostHeader lowerRune script.bytes = none := hheard.asked hrouted
  rcases ho.part_or_whole with hpart | hwhole
  · rw [parse_part lowerRune hpart] at hnone
    cases hnone
  · rw [parse_whole hlower hspace hwhole] at hnone
    cases hnone

/-- The loop stops of itself only with the whole head. -/
theorem OfRequest.whole (ho : OfRequest lowerRune h script s)
    (hlen : h.bytes.length ≤ httpMaxHeaderBuf) (hample : Ample script.bytes) :
    h.bytes <+: script.bytes := by
  rcases hample with hend | hfull
  · exact (head_read_iff ho.starts ho.taken.1).mp hend
  · exact List.prefix_of_prefix_length_le ho.starts ho.taken.1 (hlen.trans hfull)

/-- Where a session is dialled to. -/
theorem OfRequest.asks (ho : OfRequest lowerRune h script s) (hfirst : Plain h.bytes) {d : Dialled}
    (hd : dialled s.phase = some d) : Asks lowerRune script d := by
  rcases ho.routed.at_dial hd with hplain | ⟨hdr, recData, host, hrec, _⟩
  · exact (ho.heard.asked hplain).asks hd
  · have htls : Tls (tlsRecordHandshake :: (hdr ++ recData)) := rfl
    exact absurd (htls.mono hrec.starts) (ho.not_tls hfirst)

/-- Without a failed read the session waits for more, or is dialled. -/
theorem OfRequest.routed_clean (ho : OfRequest lowerRune h script s) (hfirst : Plain h.bytes)
    (hlower : AsciiOnly lowerRune needle) (hspace : h.host.content.head? = some 0x20)
    (hvalue : h.host.value ≠ []) (hlen : h.bytes.length ≤ httpMaxHeaderBuf)
    (hclean : Clean script) : s.phase.settled = false ∨ ∃ d, dialled s.phase = some d := by
  have hheard := ho.heard
  cases hphase : s.phase with
  | first | header b got | record b hdr recLen got | head buf => exact .inl rfl
  | dialing d | forwarding d | relaying d => exact .inr ⟨d, rfl⟩
  | panicked => exact absurd hphase (ho.calm hlower hspace)
  | closed why =>
      rw [hphase] at hheard
      have hne : script.bytes ≠ [] := fun hnil => by cases hheard.silent hnil hclean
      have hasked := hheard.asked ⟨hne, ho.not_tls hfirst⟩
      cases why with
      | dial d | forward d | relayed d => exact .inr ⟨d, rfl⟩
      | firstRead e => cases hasked
      | noHost err =>
          obtain ⟨hnone, hample⟩ := hasked
          rw [parse_whole hlower hspace (ho.whole hlen (hample hclean)), Option.some.injEq] at hnone
          exact absurd hnone hvalue

/-! ## Reading the head to its end -/

/-- One byte is read. -/
theorem read_byte {c : UInt8} {more : List UInt8} (hpos : 0 < s.phase.room)
    (hin : s.relay.up.inbound = c :: more) :
    ∃ s', Session.step lowerRune s (.read 1 none) = some s' ∧
      s'.phase = s.phase.read lowerRune [c] none ∧ s'.relay.up.inbound = more := by
  have hsome : 1 ≤ s.relay.up.inbound.length := by
    rw [hin, List.length_cons]
    omega
  obtain ⟨s', hstep, hnext, hleft⟩ := @clean_read lowerRune s 1 hpos hpos hsome
  rw [hin] at hnext hleft
  exact ⟨s', hstep, hnext, hleft⟩

theorem towards_from_head {buf rest more : List UInt8} (hphase : s.phase = .head buf)
    (hhead : h.bytes = buf ++ rest) (hrest : rest ≠ []) (hin : s.relay.up.inbound = rest ++ more)
    (hlen : h.bytes.length ≤ httpMaxHeaderBuf) :
    Towards lowerRune s (endHead lowerRune h.bytes none) := by
  -- on the part of the head that is missing; the last byte of it ends the loop
  induction rest generalizing s buf with
  | nil => exact absurd rfl hrest
  | cons c rest ih =>
      have hlength := congrArg List.length hhead
      rw [List.length_append, List.length_cons] at hlength
      have hpos : 0 < s.phase.room := by
        rw [hphase, room, if_pos (by omega)]
        decide
      obtain ⟨s', hstep, hnext, hleft⟩ := @read_byte lowerRune s c (rest ++ more) hpos hin
      refine Towards.step hstep ?_
      rw [hphase] at hnext
      simp only [Phase.read] at hnext
      have hpart : buf ++ [c] <+: h.bytes := by
        rw [hhead]
        exact ⟨rest, by simp⟩
      have hiff := head_read_iff List.prefix_rfl hpart
      cases rest with
      | nil =>
          rw [← hhead, if_pos ((head_read_iff List.prefix_rfl List.prefix_rfl).mpr
            List.prefix_rfl)] at hnext
          exact Towards.here hnext
      | cons c' rest =>
          have hshort : (buf ++ [c]).length < h.bytes.length := by
            rw [hlength, List.length_append, List.length_cons, List.length_cons]
            simp
          have hmore : ¬ contains (buf ++ [c]) headEnd = true := by
            rw [hiff]
            intro hwhole
            have hle := hwhole.length_le
            omega
          rw [if_neg hmore, enterHead, if_pos (by omega)] at hnext
          exact ih hnext (by rw [hhead]; simp) (List.cons_ne_nil _ _) hleft

theorem towards_from_start {more : List UInt8} (hphase : s.phase = .first) (hfirst : Plain h.bytes)
    (hin : s.relay.up.inbound = h.bytes ++ more) (hlen : h.bytes.length ≤ httpMaxHeaderBuf) :
    Towards lowerRune s (endHead lowerRune h.bytes none) := by
  have hpos : 0 < s.phase.room := by
    rw [hphase]
    decide
  -- the empty line alone is longer than one byte
  have hlong : headEnd.length ≤ h.bytes.length := by
    rw [bytes_headEnd, List.length_append, List.length_append]
    omega
  cases hhead : h.bytes with
  | nil => exact absurd hhead hfirst.1
  | cons b rest =>
      rw [hhead, List.cons_append] at hin
      rw [hhead] at hlong
      obtain ⟨s', hstep, hnext, hleft⟩ := @read_byte lowerRune s b (rest ++ more) hpos hin
      have htls : b ≠ tlsRecordHandshake := by simpa [Tls, hhead] using hfirst.2
      have hloop : s'.phase = .head [b] := by
        rw [hnext, hphase]
        show (if b = tlsRecordHandshake then .header b [] else enterHead lowerRune [b]) = .head [b]
        rw [if_neg htls]
        rfl
      rw [← hhead]
      refine Towards.step hstep (towards_from_head hloop hhead ?_ hleft hlen)
      rintro rfl
      simp [headEnd] at hlong

/-- A session that waits comes to the end of a head that has been sent. -/
theorem OfRequest.towards (ho : OfRequest lowerRune h script s) (hfirst : Plain h.bytes)
    (hlen : h.bytes.length ≤ httpMaxHeaderBuf) (hwaits : s.phase.settled = false) :
    Towards lowerRune s (endHead lowerRune h.bytes none) := by
  obtain ⟨more, hmore⟩ := ho.starts
  have hsent := ho.taken.2 hwaits
  rw [← hmore] at hsent
  have hrouted := ho.routed
  cases hphase : s.phase with
  | first =>
      rw [hphase] at hrouted
      have hnil : script.bytes = [] := hrouted
      rw [hnil, List.nil_append] at hsent
      exact towards_from_start hphase hfirst hsent hlen
  | header b got | record b hdr recLen got =>
      rw [hphase] at hrouted
      obtain ⟨rfl, hsofar, _⟩ := hrouted
      refine absurd ?_ (ho.not_tls hfirst)
      rw [hsofar]
      rfl
  | head buf =>
      have hheard := ho.heard
      rw [hphase] at hrouted hheard
      obtain ⟨rfl, hopen⟩ := hheard.asked hrouted.2
      have hnot : ¬ h.bytes <+: script.bytes := by
        rw [← head_read_iff ho.starts ho.taken.1, hopen]
        simp
      obtain ⟨rest, hrest⟩ := ho.part_or_whole.resolve_right hnot
      rw [← hrest, List.append_assoc] at hsent
      refine towards_from_head hphase hrest.symm ?_ (List.append_cancel_left hsent) hlen
      rintro rfl
      rw [List.append_nil] at hrest
      exact hnot (hrest ▸ List.prefix_rfl)
  | dialing d | forwarding d | relaying d | closed why | panicked =>
      rw [hphase] at hwaits
      cases hwaits

end Request

/-- Reads that do not fail make a clean script. -/
theorem clean_of_events {lowerRune : Nat → Nat} {es : List (PoolEvent Session.Event)} {i : Nat}
    (h : ∀ n e, PoolEvent.on i (.read n (some e)) ∉ es) : Clean (scriptOf lowerRune es i) := by
  intro c hc
  obtain ⟨τ, ev, hmem, hread⟩ := mem_trace hc
  obtain ⟨pe, hpe, hown⟩ := List.mem_filterMap.mp hmem
  cases ev with
  | wire e | dial ok | forward failed => cases hread
  | read n err =>
      obtain rfl : c = ⟨τ.taken n, err⟩ := List.mem_singleton.mp hread
      cases pe with
      | spawn => cases hown
      | on j e =>
          rw [PoolEvent.own] at hown
          split at hown
          · rename_i hij
            subst hij
            obtain rfl := Option.some.inj hown
            cases err with
            | none => rfl
            | some e => exact absurd hpe (h n e)
          · cases hown

/-- **A request is routed to the host it names.** In every run of the proxy, take a
session whose client has sent a legal request head, with a space in front of its host,
and whatever follows it. It has not panicked. If it was dialled, it had either read the
whole head and was dialled to the host in it, or only part of the head, of which the
host was taken. Only a failed read leaves it with a part: without one it waits for more
or was dialled to the host with the whole head peeked. And as long as it waits for
reads, its own reads alone take it there, whatever the other sessions do and without
another byte from its client. -/
theorem request_routed (lowerRune : Nat → Nat) (hlower : AsciiOnly lowerRune needle)
    (es : List (PoolEvent Session.Event)) (pool : List Session)
    (hrun : run (serverStep lowerRune) [] es = some pool) (i : Nat) (s : Session)
    (hi : pool[i]? = some s) (h : Head) (hfirst : Plain h.bytes)
    (hspace : h.host.lead.head? = some 0x20) (hvalue : h.host.value ≠ [])
    (hlen : h.bytes.length ≤ httpMaxHeaderBuf) (hsent : h.bytes <+: s.relay.up.sent) :
    s.phase ≠ .panicked ∧
      (∀ d, dialled s.phase = some d →
        (h.bytes <+: d.peeked ∧ d.target = dialTarget h.host.value httpPort) ∨
          (d.peeked <+: h.bytes ∧ d.target = dialTarget (hostField d.peeked) httpPort)) ∧
      ((∀ n e, PoolEvent.on i (.read n (some e)) ∉ es) →
        s.phase.settled = false ∨ ∃ d, dialled s.phase = some d ∧ h.bytes <+: d.peeked ∧
          d.target = dialTarget h.host.value httpPort) ∧
      ((∀ t ∈ pool, t.phase ≠ .panicked) → s.phase.settled = false →
        ∃ (own : List Session.Event) (s' : Session), (∀ e ∈ own, CleanRead e) ∧
          run (serverStep lowerRune) pool (own.map (.on i)) = some (pool.set i s') ∧
          s'.phase = .dialing ⟨dialTarget h.host.value httpPort, h.bytes⟩) := by
  have hspace' := (Field.content_head hvalue).mpr hspace
  have ho := ofRequest_run hrun hi hsent
  refine ⟨ho.calm hlower hspace', ?_, ?_, ?_⟩
  · intro d hd
    obtain ⟨hpeeked, ⟨host, hparse, htarget⟩, _⟩ := ho.asks hfirst hd
    rw [hpeeked, htarget]
    rcases ho.part_or_whole with hpart | hwhole
    · rw [parse_part lowerRune hpart, Option.some.injEq] at hparse
      exact .inr ⟨hpart, by rw [hparse]⟩
    · rw [parse_whole hlower hspace' hwhole, Option.some.injEq] at hparse
      exact .inl ⟨hwhole, by rw [hparse]⟩
  · intro hreads
    have hclean : Clean (scriptOf lowerRune es i) := clean_of_events hreads
    refine (ho.routed_clean hfirst hlower hspace' hvalue hlen hclean).imp_right ?_
    rintro ⟨d, hd⟩
    obtain ⟨hpeeked, ⟨host, hparse, htarget⟩, hample⟩ := ho.asks hfirst hd
    have hwhole := ho.whole hlen (hample hclean)
    rw [parse_whole hlower hspace' hwhole, Option.some.injEq] at hparse
    exact ⟨d, hd, hpeeked ▸ hwhole, by rw [htarget, hparse]⟩
  · intro halive hwaits
    obtain ⟨own, s', hreads, hown, hphase⟩ := ho.towards hfirst hlen hwaits
    have hcalm : ∀ t ∈ pool, t.fatal = false := fun t ht => decide_eq_false (halive t ht)
    refine ⟨own, s', hreads, ?_, ?_⟩
    · exact pool_plays (P := fun t => ∃ script, OfRequest lowerRune h script t) hcalm hi
        (fun t ht => decide_eq_false (ht.choose_spec.calm hlower hspace'))
        (fun t e t' ht hstep => ⟨_, ht.choose_spec.step hstep⟩) ⟨_, ho⟩ hown
    · rw [hphase, endHead, parse_whole hlower hspace' List.prefix_rfl, Option.map_some, settle,
        if_neg (by simp [hvalue])]

/-! ## A sample -/

theorem sampleValue_trimmed : Trimmed (ascii "a.io") := by
  refine ⟨?_, ?_⟩
  · rintro c ⟨⟩
    decide
  · rintro c ⟨⟩
    decide

def sampleField : Field :=
  { tightField with
    lead := [0x20]
    value := ascii "a.io"
    lead_ows := by decide
    value_inLine := by decide
    value_trimmed := sampleValue_trimmed }

def sampleHead : Head := { tightHead with host := sampleField, host_isHost := by decide }

/-- A client that has sent its request, of which one byte has been read, and another
one whose connection broke in the middle of its host. -/
def requestClients : List (PoolEvent Session.Event) :=
  [.spawn, .spawn, .on 0 (.wire (.on .up (.send sampleHead.bytes))), .on 0 (.read 1 none),
    .on 1 (.wire (.on .up (.send sampleHead.bytes))), .on 1 (.read 1 none),
    .on 1 (.read 22 (some (.other 104)))]

def requestWaits : Session :=
  ⟨.head [0x47], ⟨⟨sampleHead.bytes, sampleHead.bytes.tail, false, [], [], false, false⟩,
    ⟨[], [], false, [], [], false, false⟩, false⟩⟩

def requestCut : Session :=
  ⟨.dialing ⟨ascii "a:80", sampleHead.bytes.take 23⟩,
    ⟨⟨sampleHead.bytes, sampleHead.bytes.drop 23, false, [], [], false, false⟩,
      ⟨[], [], false, [], [], false, false⟩, false⟩⟩

theorem requestClients_run :
    run (serverStep latinLower) [] requestClients = some [requestWaits, requestCut] := by
  decide +kernel

theorem sampleHead_plain : Plain sampleHead.bytes := by
  refine ⟨by decide, ?_⟩
  unfold Tls
  decide

theorem request_routed_sample :
    ∃ (own : List Session.Event) (s' : Session), (∀ e ∈ own, CleanRead e) ∧
      run (serverStep latinLower) [requestWaits, requestCut] (own.map (.on 0)) =
        some [s', requestCut] ∧
      s'.phase = .dialing ⟨dialTarget (ascii "a.io") httpPort, sampleHead.bytes⟩ :=
  (request_routed latinLower latinLower_asciiOnly requestClients _ requestClients_run 0 requestWaits
    rfl sampleHead sampleHead_plain rfl (by decide) (by decide) List.prefix_rfl).2.2.2
    (by decide +kernel) rfl

end AiInterceptor.Theorems.HttpRouting
