import AiInterceptor.Lib.Simulation
import AiInterceptor.Logic.Session
import AiInterceptor.Theorems.HostHeader
import AiInterceptor.Theorems.ServerName
import AiInterceptor.Theorems.StreamIntact
import AiInterceptor.Theorems.Teardown

/-!
# Any number of sessions at once

The proxy's sessions read, dial, forward and relay in any order. Each of them does
with its connection what `handle` makes of that connection's reads alone, and the two
streams it carries arrive in order and without gaps: what is not delivered yet is in
hand, in the copier's buffer or still to be read, until the session is closed.
-/

namespace AiInterceptor.Theorems.Sessions

open Lib Go Proxy Teardown

/-! ## A session and `handle` -/

section Session

variable {lowerRune : Nat → Nat} {s s' : Session} {ev : Session.Event}

/-- The phase is the one in which `handle` is after these reads. -/
def Follows (lowerRune : Nat → Nat) (script : Conn) (s : Session) : Prop :=
  ∀ future, handle lowerRune (script ++ future) = s.phase.resume lowerRune future

theorem resume_afterWire (phase : Phase) (e : Relay.Event) (conn : Conn) :
    (Session.afterWire phase e).resume lowerRune conn = phase.resume lowerRune conn := by
  cases e with
  | on d e => rfl
  | teardown =>
      cases phase with
      | first | header b got | record b hdr recLen got | head buf | dialing d | forwarding d
      | relaying d | closed why | panicked => rfl

theorem taken_length {n : Nat} (h : n ≤ s.relay.up.inbound.length) : (s.taken n).length = n := by
  rw [Session.taken, List.length_take, Nat.min_eq_left h]

/-- A step that reads nothing and leaves the extraction as it is. -/
theorem Follows.silent {script : Conn} (h : Follows lowerRune script s)
    (hsame : ∀ conn, s'.phase.resume lowerRune conn = s.phase.resume lowerRune conn) :
    Follows lowerRune (script ++ []) s' := by
  intro future
  rw [List.append_nil, h, hsame]

theorem Follows.step {script : Conn} (h : Follows lowerRune script s)
    (hstep : Session.step lowerRune s ev = some s') :
    Follows lowerRune (script ++ s.reads ev) s' := by
  rcases Session.step_cases hstep with ⟨e, relay, rfl, _, _, rfl⟩ |
    ⟨n, err, rfl, hroom, hfits, hin, rfl⟩ | ⟨d, hphase, ⟨rfl, rfl⟩ | ⟨rfl, rfl⟩⟩ |
    ⟨d, hphase, ⟨rfl, rfl⟩ | ⟨n, rfl, rfl⟩⟩
  · exact h.silent fun conn => resume_afterWire s.phase e conn
  · intro future
    rw [Session.reads, List.append_assoc, List.singleton_append, h]
    exact Phase.resume_read hroom ((taken_length hin).trans_le hfits) future
  · refine h.silent fun conn => ?_
    rw [hphase]
    rfl
  · refine h.silent fun conn => ?_
    rw [hphase]
    rfl
  · refine h.silent fun conn => ?_
    rw [hphase]
    rfl
  · refine h.silent fun conn => ?_
    rw [hphase]
    rfl

theorem follows_run {es : List Session.Event}
    (hrun : run (Session.step lowerRune) Session.start es = some s) :
    Follows lowerRune (trace (Session.step lowerRune) Session.reads Session.start es) s := by
  refine run_from (P := fun hist ρ => Follows lowerRune
    (trace (Session.step lowerRune) Session.reads Session.start hist) ρ) ?_ ?_ hrun
  · intro future
    rfl
  · intro hist ρ e ρ' hhist h hstep
    rw [trace_snoc _ hhist]
    exact h.step hstep

/-! ## The bytes of a session -/

/-- A step of the peer that a pipe comes from. -/
def FromPeer (e : PipeEvent) : Prop := (∃ bytes, e = .send bytes) ∨ e = .halfClose

/-- It only adds to what is on its way. -/
theorem peer_step {torn : Bool} {p p' : Pipe} {e : PipeEvent}
    (h : Pipe.step torn p e = some p') (he : FromPeer e) :
    p'.delivered = p.delivered ∧ p'.buf = p.buf ∧
      ∃ more, p'.inbound = p.inbound ++ more ∧ p'.sent = p.sent ++ more := by
  rcases he with ⟨bytes, rfl⟩ | rfl
  · rcases pipe_step_cases h with ⟨bytes', _, _, rfl⟩ | ⟨h', _⟩ | ⟨n, h', _⟩ | ⟨h', _⟩ | ⟨h', _⟩ |
      ⟨h', _⟩
    · exact ⟨rfl, rfl, bytes', rfl, rfl⟩
    all_goals cases h'
  · rcases pipe_step_cases h with ⟨bytes', h', _⟩ | ⟨_, _, rfl⟩ | ⟨n, h', _⟩ | ⟨h', _⟩ | ⟨h', _⟩ |
      ⟨h', _⟩
    · cases h'
    · exact ⟨rfl, rfl, [], (List.append_nil _).symm, (List.append_nil _).symm⟩
    all_goals cases h'

/-- Outside the relay only the peers move, the upstream once it is there. -/
theorem admits_cases {phase : Phase} {e : Relay.Event} (h : Session.admits phase e = true) :
    (∃ d, phase = .relaying d) ∨
      ∃ d pe, e = .on d pe ∧ FromPeer pe ∧ (d = .down → phase.connected = true) := by
  have hrelaying : phase.isRelaying = true → ∃ d, phase = .relaying d := by
    intro h
    cases phase with
    | relaying d => exact ⟨d, rfl⟩
    | first | header b got | record b hdr recLen got | head buf | dialing d | forwarding d
    | closed why | panicked => cases h
  cases e with
  | teardown => exact .inl (hrelaying h)
  | on d pe =>
      cases pe with
      | send bytes =>
          refine .inr ⟨d, _, rfl, .inl ⟨bytes, rfl⟩, ?_⟩
          rintro rfl
          exact h
      | halfClose =>
          refine .inr ⟨d, _, rfl, .inr rfl, ?_⟩
          rintro rfl
          exact h
      | read n | write | eof | fail =>
          cases d with
          | up => exact .inl (hrelaying h)
          | down => exact .inl (hrelaying h)

/-- What every session keeps: the streams, and how its phase and its connections fit
together. -/
structure Intact (s : Session) : Prop where
  waits : s.phase.settled = false → 0 < s.phase.room
  ended : s.relay.torn = s.phase.hasEnded
  idle : s.phase.isRelaying = false → s.phase.hasEnded = false → s.relay.up.buf = []
  alone : s.phase.connected = false → s.relay.up.delivered = [] ∧ s.relay.down.sent = []
  up : s.phase.hasEnded = false →
    s.relay.up.delivered ++ s.phase.held ++ s.relay.up.buf ++ s.relay.up.inbound = s.relay.up.sent
  upstream : s.relay.up.delivered <+: s.relay.up.sent
  down : Conserved s.relay.down

theorem intact_start : Intact Session.start := by
  refine ⟨?_, rfl, ?_, ?_, ?_, ?_, ?_⟩
  · intro _
    exact Nat.one_pos
  · intro _ _
    rfl
  · intro _
    exact ⟨rfl, rfl⟩
  · intro _
    rfl
  · exact List.prefix_rfl
  · rfl

/-- What is delivered comes first. -/
theorem delivered_first {p : Pipe} (h : Conserved p) : p.delivered <+: p.sent := by
  rw [← h, List.append_assoc]
  exact List.prefix_append _ _

/-- A step of the wire: the peers add to the streams, the copiers pass them on. -/
theorem Intact.wire {e : Relay.Event} {relay : Relay} (h : Intact s)
    (hadmits : Session.admits s.phase e = true) (hstep : s.relay.step e = some relay) :
    Intact ⟨Session.afterWire s.phase e, relay⟩ := by
  have hdown : Conserved relay.down :=
    pipes_step (fun _ _ _ _ hc hs => Conserved.step hc hs) hstep .down h.down
  rcases admits_cases hadmits with ⟨d, hphase⟩ | ⟨d, pe, rfl, hpe, hconn⟩
  · -- in the relay nothing is in hand, and the copiers lose nothing
    have hopen : s.phase.hasEnded = false := by rw [hphase]; rfl
    have hcons : Conserved s.relay.up := by
      have hup := h.up hopen
      rw [hphase, Phase.held, List.append_nil] at hup
      exact hup
    have hcons' : Conserved relay.up :=
      pipes_step (fun _ _ _ _ hc hs => Conserved.step hc hs) hstep .up hcons
    have htorn : s.relay.torn = false := h.ended.trans hopen
    rw [hphase]
    rcases relay_step_cases hstep with ⟨d', pe, p', rfl, _, rfl⟩ | ⟨rfl, _, rfl⟩
    · refine ⟨?_, (Relay.torn_setPipe _ _ _).trans htorn, ?_, ?_, ?_, delivered_first hcons',
        hdown⟩
      · intro hs
        cases hs
      · intro hr
        cases hr
      · intro hc
        cases hc
      · intro _
        show _ ++ [] ++ _ ++ _ = _
        rw [List.append_nil]
        exact hcons'
    · refine ⟨?_, rfl, ?_, ?_, ?_, delivered_first hcons', hdown⟩
      · intro hs
        cases hs
      · intro _ he
        cases he
      · intro hc
        cases hc
      · intro he
        cases he
  · obtain ⟨p', hp, rfl⟩ := Option.map_eq_some_iff.mp hstep
    obtain ⟨hdel, hbuf, more, hin, hsent⟩ := peer_step hp hpe
    cases d with
    | up =>
        refine ⟨h.waits, h.ended, ?_, ?_, ?_, ?_, hdown⟩
        · intro hr he
          exact hbuf.trans (h.idle hr he)
        · intro hc
          exact ⟨hdel.trans (h.alone hc).1, (h.alone hc).2⟩
        · intro he
          have hup : (s.relay.pipe .up).delivered ++ s.phase.held ++ (s.relay.pipe .up).buf ++
              (s.relay.pipe .up).inbound = (s.relay.pipe .up).sent := h.up he
          show p'.delivered ++ s.phase.held ++ p'.buf ++ p'.inbound = p'.sent
          rw [hdel, hbuf, hin, hsent, ← hup]
          exact (List.append_assoc _ _ _).symm
        · show p'.delivered <+: p'.sent
          rw [hdel, hsent]
          exact h.upstream.trans (List.prefix_append _ _)
    | down =>
        refine ⟨h.waits, h.ended, h.idle, ?_, h.up, h.upstream, hdown⟩
        intro hc
        have hyes := hconn rfl
        rw [show s.phase.connected = false from hc] at hyes
        cases hyes

/-- A read moves bytes from the connection into the session's hand. -/
theorem Intact.read {n : Nat} {err : Option IoError} (h : Intact s) (hroom : 0 < s.phase.room)
    (hfits : n ≤ s.phase.room) (hin : n ≤ s.relay.up.inbound.length) :
    Intact (Session.goto
      { s.relay with up := { s.relay.up with inbound := s.relay.up.inbound.drop n } }
      (s.phase.read lowerRune (s.taken n) err)) := by
  have hlen : (s.taken n).length ≤ s.phase.room := (taken_length hin).trans_le hfits
  have hearly : (s.phase.read lowerRune (s.taken n) err).Early := Phase.early_read hroom hlen
  -- whoever waits for a read has no upstream yet
  have hwaiting : s.phase.connected = false ∧ s.phase.isRelaying = false ∧
      s.phase.hasEnded = false := by
    cases hphase : s.phase with
    | first | header b got | record b hdr recLen got | head buf => exact ⟨rfl, rfl, rfl⟩
    | dialing d | forwarding d | relaying d | closed why | panicked =>
        rw [hphase] at hroom
        cases hroom
  obtain ⟨hconn, hrelay, hopen⟩ := hwaiting
  refine ⟨hearly.2, ?_, ?_, ?_, ?_, h.upstream, h.down⟩
  · show (s.relay.torn || _) = _
    rw [h.ended, hopen, Bool.false_or]
    rfl
  · intro _ _
    exact h.idle hrelay hopen
  · intro _
    exact h.alone hconn
  · intro hgoes
    show s.relay.up.delivered ++ (s.phase.read lowerRune (s.taken n) err).held ++
      s.relay.up.buf ++ s.relay.up.inbound.drop n = s.relay.up.sent
    have hup := h.up hopen
    rw [h.idle hrelay hopen, List.append_nil] at hup ⊢
    rw [Phase.held_read hroom hlen hgoes, Session.taken, ← List.append_assoc, List.append_assoc,
      List.take_append_drop]
    exact hup

theorem Intact.dial {d : Dialled} (h : Intact s) (hphase : s.phase = .dialing d) :
    Intact (Session.goto s.relay (.forwarding d)) ∧
      Intact (Session.goto s.relay (.closed (.dial d))) := by
  have htorn := h.ended
  have hidle := h.idle
  have hup := h.up
  have halone := h.alone
  rw [hphase] at htorn hidle hup halone
  refine ⟨⟨?_, ?_, ?_, ?_, hup, h.upstream, h.down⟩, ⟨?_, ?_, ?_, ?_, ?_, h.upstream, h.down⟩⟩
  · intro hs
    cases hs
  · show (s.relay.torn || false) = false
    rw [htorn]
    rfl
  · exact hidle
  · intro hc
    cases hc
  · intro hs
    cases hs
  · exact Bool.or_true _
  · intro _ he
    cases he
  · exact halone
  · intro he
    cases he

/-- The peeked bytes go out first, all of them or the first few. -/
theorem Intact.forward {d : Dialled} (h : Intact s) (hphase : s.phase = .forwarding d) :
    Intact (Session.goto { s.relay with
        up := { s.relay.up with delivered := s.relay.up.delivered ++ d.peeked } } (.relaying d)) ∧
      ∀ n, Intact (Session.goto { s.relay with
        up := { s.relay.up with delivered := s.relay.up.delivered ++ d.peeked.take n } }
        (.closed (.forward d))) := by
  have htorn := h.ended
  have hup := h.up
  rw [hphase] at htorn hup
  have hup : s.relay.up.delivered ++ d.peeked ++ s.relay.up.buf ++ s.relay.up.inbound =
      s.relay.up.sent := hup rfl
  refine ⟨⟨?_, ?_, ?_, ?_, ?_, ?_, h.down⟩, fun n => ⟨?_, ?_, ?_, ?_, ?_, ?_, h.down⟩⟩
  · intro hs
    cases hs
  · show (s.relay.torn || false) = false
    rw [htorn]
    rfl
  · intro hr
    cases hr
  · intro hc
    cases hc
  · intro _
    show s.relay.up.delivered ++ d.peeked ++ [] ++ s.relay.up.buf ++ s.relay.up.inbound = _
    rw [List.append_nil]
    exact hup
  · exact delivered_first hup
  · intro hs
    cases hs
  · exact Bool.or_true _
  · intro _ he
    cases he
  · intro hc
    cases hc
  · intro he
    cases he
  · show s.relay.up.delivered ++ d.peeked.take n <+: s.relay.up.sent
    have hall : s.relay.up.delivered ++ d.peeked <+: s.relay.up.sent := by
      rw [← hup, List.append_assoc (s.relay.up.delivered ++ d.peeked)]
      exact List.prefix_append _ _
    exact ((List.prefix_append_right_inj _).mpr (List.take_prefix n d.peeked)).trans hall

theorem Intact.step (h : Intact s) (hstep : Session.step lowerRune s ev = some s') : Intact s' := by
  rcases Session.step_cases hstep with ⟨e, relay, rfl, hadmits, hrelay, rfl⟩ |
    ⟨n, err, rfl, hroom, hfits, hin, rfl⟩ | ⟨d, hphase, ⟨rfl, rfl⟩ | ⟨rfl, rfl⟩⟩ |
    ⟨d, hphase, ⟨rfl, rfl⟩ | ⟨n, rfl, rfl⟩⟩
  · exact h.wire hadmits hrelay
  · exact h.read hroom hfits hin
  · exact (h.dial hphase).1
  · exact (h.dial hphase).2
  · exact (h.forward hphase).1
  · exact (h.forward hphase).2 n

theorem intact_run {es : List Session.Event}
    (hrun : run (Session.step lowerRune) Session.start es = some s) : Intact s :=
  run_invariant (fun _ _ _ h hstep => Intact.step h hstep) intact_start hrun

/-- The reads of a session are its client's first bytes, and up to the last of them
nothing else is taken from the connection. -/
def Taken (script : Conn) (s : Session) : Prop :=
  script.bytes <+: s.relay.up.sent ∧
    (s.phase.settled = false → script.bytes ++ s.relay.up.inbound = s.relay.up.sent)

theorem sent_grows {relay relay' : Relay} {e : Relay.Event} (h : relay.step e = some relay') :
    relay.up.sent <+: relay'.up.sent := by
  refine pipes_step (P := fun p => relay.up.sent <+: p.sent) ?_ h .up List.prefix_rfl
  intro torn p e p' hp hs
  rcases pipe_step_cases hs with ⟨bytes, _, _, rfl⟩ | ⟨_, _, rfl⟩ | ⟨n, _, _, _, _, _, rfl⟩ |
    ⟨_, _, rfl⟩ | ⟨_, _, _, _, rfl⟩ | ⟨_, rfl⟩
  · exact hp.trans (List.prefix_append _ _)
  all_goals exact hp

theorem Taken.step {script : Conn} (h : Taken script s)
    (hstep : Session.step lowerRune s ev = some s') : Taken (script ++ s.reads ev) s' := by
  obtain ⟨hfirst, hwaits⟩ := h
  rcases Session.step_cases hstep with ⟨e, relay, rfl, hadmits, hrelay, rfl⟩ |
    ⟨n, err, rfl, hroom, hfits, hin, rfl⟩ | ⟨d, hphase, ⟨rfl, rfl⟩ | ⟨rfl, rfl⟩⟩ |
    ⟨d, hphase, ⟨rfl, rfl⟩ | ⟨n, rfl, rfl⟩⟩
  · show Taken (script ++ []) _
    rw [List.append_nil]
    refine ⟨hfirst.trans (sent_grows hrelay), ?_⟩
    intro hwaiting
    rcases admits_cases hadmits with ⟨d, hphase⟩ | ⟨d, pe, rfl, hpe, _⟩
    · rw [hphase] at hwaiting
      cases e with
      | on d' pe => cases hwaiting
      | teardown => cases hwaiting
    · obtain ⟨p', hp, rfl⟩ := Option.map_eq_some_iff.mp hrelay
      cases d with
      | down => exact hwaits hwaiting
      | up =>
          obtain ⟨_, _, more, hmore, hsent⟩ := peer_step hp hpe
          have hold : script.bytes ++ (s.relay.pipe .up).inbound = (s.relay.pipe .up).sent :=
            hwaits hwaiting
          show script.bytes ++ p'.inbound = p'.sent
          rw [hmore, hsent, ← List.append_assoc, hold]
  · have hwaiting : s.phase.settled = false := by
      cases hphase : s.phase with
      | first | header b got | record b hdr recLen got | head buf => rfl
      | dialing d | forwarding d | relaying d | closed why | panicked =>
          rw [hphase] at hroom
          cases hroom
    have hall : (script ++ [⟨s.taken n, err⟩] : Conn).bytes ++ s.relay.up.inbound.drop n =
        s.relay.up.sent := by
      rw [Source.bytes, List.flatMap_append, List.flatMap_singleton, List.append_assoc,
        Session.taken, List.take_append_drop]
      exact hwaits hwaiting
    refine ⟨?_, fun _ => hall⟩
    show (script ++ [⟨s.taken n, err⟩] : Conn).bytes <+: s.relay.up.sent
    rw [← hall]
    exact List.prefix_append _ _
  all_goals
    show Taken (script ++ []) _
    rw [List.append_nil]
    exact ⟨hfirst, fun hs => by cases hs⟩

theorem taken_run {es : List Session.Event}
    (hrun : run (Session.step lowerRune) Session.start es = some s) :
    Taken (trace (Session.step lowerRune) Session.reads Session.start es) s := by
  refine run_from (P := fun hist ρ =>
    Taken (trace (Session.step lowerRune) Session.reads Session.start hist) ρ) ?_ ?_ hrun
  · exact ⟨List.prefix_rfl, fun _ => rfl⟩
  · intro hist ρ e ρ' hhist h hstep
    rw [trace_snoc _ hhist]
    exact h.step hstep

end Session

/-! ## The server -/

section Server

variable {lowerRune : Nat → Nat} {es : List (PoolEvent Session.Event)} {pool : List Session}
  {i : Nat} {s : Session}

/-- The reads session `i` has made, as the script of its connection. -/
def scriptOf (lowerRune : Nat → Nat) (es : List (PoolEvent Session.Event)) (i : Nat) : Conn :=
  trace (Session.step lowerRune) Session.reads Session.start (es.filterMap (PoolEvent.own i))

/-- What `handle` has come to, once no read is waited for. -/
def outcome : Phase → Option Handled
  | .first | .header .. | .record .. | .head _ => none
  | .dialing d | .forwarding d | .relaying d => some (.dial d.target d.peeked)
  | .closed (.dial d) | .closed (.forward d) | .closed (.relayed d) =>
      some (.dial d.target d.peeked)
  | .closed (.firstRead _) | .closed (.noHost _) => some .closed
  | .panicked => some .panicked

theorem resume_outcome {phase : Phase} {h : Handled} (hout : outcome phase = some h)
    (conn : Conn) : phase.resume lowerRune conn = (h, conn) := by
  cases phase with
  | first | header b got | record b hdr recLen got | head buf => cases hout
  | dialing d | forwarding d | relaying d | panicked =>
      obtain rfl := Option.some.inj hout
      rfl
  | closed why =>
      cases why with
      | dial d | forward d | relayed d | firstRead e | noHost err =>
          obtain rfl := Option.some.inj hout
          rfl

theorem session_handled (hrun : run (serverStep lowerRune) [] es = some pool)
    (hi : pool[i]? = some s) {h : Handled} (hout : outcome s.phase = some h) :
    handle lowerRune (scriptOf lowerRune es i) = (h, []) := by
  have hfollows := follows_run ((pool_own hrun).1 i s hi) []
  rw [List.append_nil, resume_outcome hout] at hfollows
  exact hfollows

theorem session_intact (hrun : run (serverStep lowerRune) [] es = some pool)
    (hi : pool[i]? = some s) : Intact s := intact_run ((pool_own hrun).1 i s hi)

/-- With an upstream there was a dial. -/
theorem outcome_connected {phase : Phase} (h : phase.connected = true) :
    ∃ target peeked, outcome phase = some (.dial target peeked) := by
  cases phase with
  | first | header b got | record b hdr recLen got | head buf | dialing d | panicked => cases h
  | forwarding d | relaying d => exact ⟨_, _, rfl⟩
  | closed why =>
      cases why with
      | firstRead e | noHost err | dial d => cases h
      | forward d | relayed d => exact ⟨_, _, rfl⟩

theorem outcome_settled {phase : Phase} (h : phase.settled = true) :
    ∃ out, outcome phase = some out := by
  cases phase with
  | first | header b got | record b hdr recLen got | head buf => cases h
  | dialing d | forwarding d | relaying d | panicked => exact ⟨_, rfl⟩
  | closed why =>
      cases why with
      | firstRead e | noHost err | dial d | forward d | relayed d => exact ⟨_, rfl⟩

theorem outcome_panicked {phase : Phase} {h : Handled} (hout : outcome phase = some h) :
    h = .panicked ↔ phase = .panicked := by
  cases phase with
  | first | header b got | record b hdr recLen got | head buf => cases hout
  | dialing d | forwarding d | relaying d | panicked =>
      obtain rfl := Option.some.inj hout
      simp
  | closed why =>
      cases why with
      | firstRead e | noHost err | dial d | forward d | relayed d =>
          obtain rfl := Option.some.inj hout
          simp

end Server

/-! ## What ends the process -/

section Crash

variable {lowerRune : Nat → Nat}

/-- A request in which the value of the Host field would start behind the end. -/
def Overrun (lowerRune : Nat → Nat) (data : List UInt8) : Prop :=
  data.head? ≠ some tlsRecordHandshake ∧ ∃ i, HostHeader.hostAt data = some i ∧
    data.length < HostHeader.loweredLength lowerRune data i + needle.length

theorem parseHostHeader_panics_iff (hlower : HostHeader.AsciiOnly lowerRune needle)
    (data : List UInt8) : parseHostHeader lowerRune data = none ↔
      ∃ i, HostHeader.hostAt data = some i ∧
        data.length < HostHeader.loweredLength lowerRune data i + needle.length := by
  cases hat : HostHeader.hostAt data with
  | none =>
      rw [HostHeader.parseHostHeader_absent hlower hat]
      simp
  | some i =>
      rw [HostHeader.parseHostHeader_found hlower hat]
      simp

/-- A panic is one of the extraction. -/
theorem finish_panics_iff {port : GoString} {r : Option Extracted × Conn} {h : Handled}
    {rest : Conn} (hfin : finish port r = (h, rest)) :
    rest = r.2 ∧ (h = .panicked ↔ r.1 = none) := by
  obtain ⟨x, conn⟩ := r
  cases x with
  | none =>
      obtain ⟨rfl, rfl⟩ := Prod.mk.inj hfin
      simp
  | some x =>
      rw [finish] at hfin
      split at hfin
      · obtain ⟨rfl, rfl⟩ := Prod.mk.inj hfin
        simp
      · obtain ⟨rfl, rfl⟩ := Prod.mk.inj hfin
        simp

/-- A finished extraction has panicked exactly on an overrun. -/
theorem handle_panics_iff (hlower : HostHeader.AsciiOnly lowerRune needle) {script : Conn}
    {h : Handled} (hend : handle lowerRune script = (h, [])) :
    h = .panicked ↔ Overrun lowerRune script.bytes := by
  rcases first_cases script with ⟨first, e, conn, hfirst⟩ | ⟨b, conn, hfirst, hbytes⟩
  · -- without a first byte there is nothing to search
    have hfailed : (Source.readFull 1 [] script).1.2 = some e := by rw [hfirst]
    have hshort := Source.readFull_short 1 [] script hfailed
    have hwhole := Source.readFull_bytes 1 [] script
    rw [handle_failed hfirst] at hend
    obtain ⟨rfl, rfl⟩ := Prod.mk.inj hend
    rw [hfirst] at hshort hwhole
    constructor
    · intro hpanic
      cases hpanic
    · rintro ⟨_, i, hat, _⟩
      have hle := HostHeader.hostAt_le hat
      have hneedle : needle.length = 8 := by decide
      simp only [List.length_nil, List.nil_append, Source.bytes_nil, List.append_nil]
        at hshort hwhole
      rw [← hwhole] at hle
      omega
  · rw [handle_eq hfirst] at hend
    by_cases htls : b = tlsRecordHandshake
    · rw [if_pos htls] at hend
      obtain ⟨x, hx⟩ := ServerName.extractSNI_isSome conn b
      constructor
      · intro hpanic
        rw [(finish_panics_iff hend).2.mp hpanic] at hx
        cases hx
      · rintro ⟨hnot, _⟩
        rw [hbytes, List.head?_cons, htls] at hnot
        exact absurd rfl hnot
    · rw [if_neg htls] at hend
      obtain ⟨hrest, hpanics⟩ := finish_panics_iff hend
      -- the search has seen all of the script
      have hpeeked := StreamIntact.httpLoop_bytes [b] conn
      have hloop : (httpLoop [b] conn).2 = [] := hrest.symm  -- `extractHTTPHost` passes it on
      rw [hloop, Source.bytes_nil, List.append_nil, List.singleton_append, ← hbytes] at hpeeked
      have hnot : script.bytes.head? ≠ some tlsRecordHandshake := by
        rw [hbytes, List.head?_cons]
        exact fun heq => htls (Option.some.inj heq)
      have hhost : (extractHTTPHost lowerRune conn b).1 = none ↔
          parseHostHeader lowerRune script.bytes = none := by
        rw [← hpeeked, ← extractHTTPHost_host, Option.map_eq_none_iff]
      rw [hpanics, hhost, parseHostHeader_panics_iff hlower, Overrun, and_iff_right hnot]

end Crash

/-! ## A copier can always deliver -/

section Deliver

/-- A step of a copier. -/
def OfCopier (e : PipeEvent) : Prop := e = .write ∨ ∃ n, e = .read n

theorem copier_reads {p : Pipe} {n : Nat} (hdone : p.done = false) (hbuf : p.buf = [])
    (hn : 0 < n) (hsize : n ≤ copyBufSize) (hlen : n ≤ p.inbound.length) :
    Pipe.step false p (.read n) =
      some { p with buf := p.inbound.take n, inbound := p.inbound.drop n } := by
  refine if_neg ?_
  rw [hdone, hbuf]
  rintro (h | h | h | h | h | h)
  · cases h
  · cases h
  · exact h rfl
  all_goals omega

theorem copier_writes {p : Pipe} (hdone : p.done = false) (hbuf : p.buf ≠ []) :
    Pipe.step false p .write = some { p with delivered := p.delivered ++ p.buf, buf := [] } := by
  refine if_neg ?_
  rw [hdone]
  rintro (h | h | h)
  · cases h
  · cases h
  · exact hbuf h

/-- A copier with an empty buffer passes on what is there, a buffer at a time. -/
theorem pipe_drains {p : Pipe} (hdone : p.done = false) (hbuf : p.buf = []) :
    ∃ pes, (∀ e ∈ pes, OfCopier e) ∧ run (Pipe.step false) p pes =
      some { p with delivered := p.delivered ++ p.inbound, inbound := [] } := by
  generalize hk : p.inbound.length = k
  induction k using Nat.strongRecOn generalizing p with
  | ind k ih =>
      by_cases hin : p.inbound = []
      · refine ⟨[], fun e he => absurd he List.not_mem_nil, ?_⟩
        rw [run_nil, hin, List.append_nil, ← hin]
      · have hpos : 0 < p.inbound.length := List.length_pos_iff.mpr hin
        have hsize : 0 < copyBufSize := by decide
        obtain ⟨n, hn, hfits, hlen⟩ : ∃ n, 0 < n ∧ n ≤ copyBufSize ∧ n ≤ p.inbound.length :=
          ⟨min copyBufSize p.inbound.length, by omega, by omega, by omega⟩
        have hread := copier_reads hdone hbuf hn hfits hlen
        have htaken : p.inbound.take n ≠ [] := by
          rw [ne_eq, List.take_eq_nil_iff]
          rintro (hzero | hnil)
          · omega
          · exact hin hnil
        have hshorter : (p.inbound.drop n).length < k := by
          rw [List.length_drop]
          omega
        obtain ⟨pes, hpes, hrest⟩ := ih _ hshorter
          (p := { p with delivered := p.delivered ++ p.inbound.take n, buf := [],
                         inbound := p.inbound.drop n }) hdone rfl rfl
        refine ⟨.read n :: .write :: pes, ?_, ?_⟩
        · intro e he
          rcases List.mem_cons.mp he with rfl | he
          · exact .inr ⟨n, rfl⟩
          rcases List.mem_cons.mp he with rfl | he
          · exact .inl rfl
          · exact hpes e he
        · refine run_cons.mpr ⟨_, hread, run_cons.mpr ⟨_, copier_writes hdone htaken, ?_⟩⟩
          rw [hrest]
          simp only [List.append_assoc, List.take_append_drop, hbuf]

/-- A copier that has not returned can deliver everything sent so far. -/
theorem pipe_delivers {p : Pipe} (hdone : p.done = false) (hcons : Conserved p) :
    ∃ pes p', (∀ e ∈ pes, OfCopier e) ∧ run (Pipe.step false) p pes = some p' ∧
      p'.delivered = p.sent := by
  by_cases hbuf : p.buf = []
  · obtain ⟨pes, hpes, hrun⟩ := pipe_drains hdone hbuf
    refine ⟨pes, _, hpes, hrun, ?_⟩
    rw [← hcons, hbuf, List.append_nil]
  · -- what is in the buffer goes out first
    have hwrite := copier_writes hdone hbuf
    obtain ⟨pes, hpes, hrun⟩ := pipe_drains (p := { p with
      delivered := p.delivered ++ p.buf, buf := [] }) hdone rfl
    refine ⟨.write :: pes, _, ?_, run_cons.mpr ⟨_, hwrite, hrun⟩, hcons⟩
    intro e he
    rcases List.mem_cons.mp he with rfl | he
    · exact .inl rfl
    · exact hpes e he

/-- The relay of a session passes the steps of its copiers on. -/
theorem session_copies {lowerRune : Nat → Nat} {s : Session} {dialled : Dialled} {d : Dir}
    {pes : List PipeEvent} {p' : Pipe} (hphase : s.phase = .relaying dialled)
    (htorn : s.relay.torn = false) (hpes : ∀ e ∈ pes, OfCopier e)
    (hrun : run (Pipe.step false) (s.relay.pipe d) pes = some p') :
    run (Session.step lowerRune) s (pes.map fun e => .wire (.on d e)) =
      some ⟨s.phase, s.relay.setPipe d p'⟩ := by
  induction pes generalizing s with
  | nil =>
      rw [run_nil, Option.some.injEq] at hrun
      subst hrun
      rw [List.map_nil, run_nil]
      cases d <;> rfl
  | cons e rest ih =>
      obtain ⟨p, hstep, hrest⟩ := run_cons.mp hrun
      have hadmits : Session.admits s.phase (.on d e) = true := by
        rw [hphase]
        rcases hpes e List.mem_cons_self with rfl | ⟨n, rfl⟩
        · cases d <;> rfl
        · cases d <;> rfl
      have hsession : Session.step lowerRune s (.wire (.on d e)) =
          some ⟨s.phase, s.relay.setPipe d p⟩ := by
        rw [Session.step, if_pos hadmits, Relay.step, htorn, hstep]
        rfl
      have hlater := ih (s := ⟨s.phase, s.relay.setPipe d p⟩) hphase
        ((Relay.torn_setPipe _ _ _).trans htorn) (fun e he => hpes e (List.mem_cons_of_mem _ he))
        (by rw [Relay.pipe_setPipe_self]; exact hrest)
      have htwice : (s.relay.setPipe d p).setPipe d p' = s.relay.setPipe d p' := by
        cases d <;> rfl
      rw [htwice] at hlater
      exact run_cons.mpr ⟨_, hsession, hlater⟩

/-- From the relay on there is nothing left to panic. -/
def Past (s : Session) : Prop := (∃ d, s.phase = .relaying d) ∨ ∃ why, s.phase = .closed why

theorem Past.calm {s : Session} (h : Past s) : s.fatal = false := by
  rcases h with ⟨d, hphase⟩ | ⟨why, hphase⟩
  · rw [Session.fatal, hphase]
    rfl
  · rw [Session.fatal, hphase]
    rfl

theorem Past.step {lowerRune : Nat → Nat} {s s' : Session} {ev : Session.Event} (h : Past s)
    (hstep : Session.step lowerRune s ev = some s') : Past s' := by
  rcases Session.step_cases hstep with ⟨e, relay, rfl, _, _, rfl⟩ | ⟨n, err, rfl, hroom, _⟩ |
    ⟨d, hphase, _⟩ | ⟨d, hphase, _⟩
  · rcases h with ⟨d, hphase⟩ | ⟨why, hphase⟩
    · cases e with
      | on d' pe => exact .inl ⟨d, hphase⟩
      | teardown => exact .inr ⟨.relayed d, by rw [hphase]; rfl⟩
    · cases e with
      | on d' pe => exact .inr ⟨why, hphase⟩
      | teardown => exact .inr ⟨why, by rw [hphase]; rfl⟩
  -- nothing is read, dialled or forwarded any more
  · rcases h with ⟨d, hpast⟩ | ⟨why, hpast⟩
    · rw [hpast] at hroom
      cases hroom
    · rw [hpast] at hroom
      cases hroom
  all_goals
    rcases h with ⟨d', hpast⟩ | ⟨why, hpast⟩
    · cases hphase.symm.trans hpast
    · cases hphase.symm.trans hpast

end Deliver

/-! ## A sample -/

section Sample

def request : List UInt8 := [0x0D, 0x0A] ++ ascii "host: a.io" ++ headEnd

/-- Two sessions: a client that closes at once, and a request whose answer is on its
way back. -/
def twoClients : List (PoolEvent Session.Event) :=
  [.spawn, .spawn, .on 1 (.wire (.on .up (.send request))), .on 0 (.wire (.on .up .halfClose)),
    .on 1 (.read 1 none), .on 0 (.read 0 (some .eof)), .on 1 (.read 15 none), .on 1 (.dial true),
    .on 1 (.forward none), .on 1 (.wire (.on .down (.send [1, 2]))),
    .on 1 (.wire (.on .down (.read 1)))]

def served : Session :=
  ⟨.relaying ⟨ascii "a.io:80", request⟩,
    ⟨⟨request, [], false, [], request, false, false⟩, ⟨[1, 2], [2], false, [1], [], false, false⟩,
      false⟩⟩

def gone : Session :=
  ⟨.closed (.firstRead .eof),
    ⟨⟨[], [], true, [], [], false, false⟩, ⟨[], [], false, [], [], false, false⟩, true⟩⟩

theorem twoClients_run : run (serverStep id) [] twoClients = some [gone, served] := by
  decide +kernel

/-- Two sessions, the second with an invalid byte in front of its Host field. -/
def badClient : List (PoolEvent Session.Event) :=
  [.spawn, .spawn, .on 1 (.wire (.on .up (.send HostHeader.invalidFront))),
    .on 1 (.wire (.on .up .halfClose)), .on 1 (.read 1 none),
    .on 1 (.read (HostHeader.invalidFront.length - 1) (some .eof))]

def crashed : Session :=
  ⟨.panicked, ⟨⟨HostHeader.invalidFront, [], true, [], [], false, false⟩,
    ⟨[], [], false, [], [], false, false⟩, true⟩⟩

theorem badClient_run :
    run (serverStep HostHeader.latinLower) [] badClient = some [Session.start, crashed] := by
  decide +kernel

end Sample

/-- **Each session does what `handle` makes of its own reads.** In every interleaving
of any number of sessions, a session that waits for no more reads has come to exactly
what `handle` returns on the script of that connection's reads, used up; the bytes it
has taken so far are the first ones of its client. -/
theorem sessions_follow_handle (lowerRune : Nat → Nat) (es : List (PoolEvent Session.Event))
    (pool : List Session) (hrun : run (serverStep lowerRune) [] es = some pool) (i : Nat)
    (s : Session) (hi : pool[i]? = some s) :
    (∀ h, outcome s.phase = some h → handle lowerRune (scriptOf lowerRune es i) = (h, [])) ∧
      (outcome s.phase = none → 0 < s.phase.room) ∧
      (scriptOf lowerRune es i).bytes <+: s.relay.up.sent := by
  refine ⟨fun h hout => session_handled hrun hi hout, ?_, ?_⟩
  · intro hout
    refine (session_intact hrun hi).waits ?_
    cases hphase : s.phase with
    | first | header b got | record b hdr recLen got | head buf => rfl
    | dialing d | forwarding d | relaying d | panicked =>
        rw [hphase] at hout
        cases hout
    | closed why =>
        rw [hphase] at hout
        cases why with
        | firstRead e | noHost err | dial d | forward d | relayed d => cases hout
  · exact (taken_run ((pool_own hrun).1 i s hi)).1

theorem sessions_follow_handle_request :
    run (serverStep id) [] twoClients = some [gone, served] ∧
      handle id (scriptOf id twoClients 1) = (.dial (ascii "a.io:80") request, []) :=
  ⟨twoClients_run, (sessions_follow_handle id twoClients _ twoClients_run 1 served rfl).1 _ rfl⟩

/-- **The streams of every session arrive in order and without gaps.** In every
interleaving of any number of sessions each peer has received a prefix of what its
counterpart has sent, while the session is open the rest is in hand, buffered or still
to be read, and an upstream takes part only after the dial that `handle` makes on the
reads of this very connection. -/
theorem sessions_intact (lowerRune : Nat → Nat) (es : List (PoolEvent Session.Event))
    (pool : List Session) (hrun : run (serverStep lowerRune) [] es = some pool) (i : Nat)
    (s : Session) (hi : pool[i]? = some s) :
    s.relay.up.delivered <+: s.relay.up.sent ∧ s.relay.down.delivered <+: s.relay.down.sent ∧
      (s.relay.torn = false →
        s.relay.up.delivered ++ s.phase.held ++ s.relay.up.buf ++ s.relay.up.inbound =
            s.relay.up.sent ∧
          s.relay.down.delivered ++ s.relay.down.buf ++ s.relay.down.inbound =
            s.relay.down.sent) ∧
      (s.relay.up.delivered ≠ [] ∨ s.relay.down.sent ≠ [] →
        ∃ target peeked, outcome s.phase = some (.dial target peeked) ∧
          handle lowerRune (scriptOf lowerRune es i) = (.dial target peeked, [])) := by
  have h := session_intact hrun hi
  refine ⟨h.upstream, delivered_first h.down, ?_, ?_⟩
  · intro htorn
    exact ⟨h.up (h.ended.symm.trans htorn), h.down⟩
  · intro hused
    cases hconn : s.phase.connected with
    | true =>
        obtain ⟨target, peeked, hout⟩ := outcome_connected hconn
        exact ⟨target, peeked, hout, session_handled hrun hi hout⟩
    | false =>
        obtain ⟨hup, hdown⟩ := h.alone hconn
        rcases hused with hused | hused
        · exact absurd hup hused
        · exact absurd hdown hused

theorem sessions_intact_request :
    run (serverStep id) [] twoClients = some [gone, served] ∧
      served.relay.down.delivered <+: [1, 2] ∧
      ∃ target peeked, outcome served.phase = some (.dial target peeked) := by
  obtain ⟨_, hdown, _, hdial⟩ := sessions_intact id twoClients _ twoClients_run 1 served rfl
  obtain ⟨target, peeked, hout, _⟩ := hdial (.inr (by decide))
  exact ⟨twoClients_run, hdown, target, peeked, hout⟩

/-- **One request can end the process, and which ones do.** A session that waits for
no more reads has panicked exactly when its connection did not start as TLS and the
value of its Host field, moved by the lower-casing of what stands in front of it, would
start behind the last byte read. Any such session stops every other one, and nothing
else does. -/
theorem process_ends_iff (lowerRune : Nat → Nat) (hlower : HostHeader.AsciiOnly lowerRune needle)
    (es : List (PoolEvent Session.Event)) (pool : List Session)
    (hrun : run (serverStep lowerRune) [] es = some pool) :
    (∀ i s, pool[i]? = some s → s.phase.settled = true →
      (s.phase = .panicked ↔ Overrun lowerRune (scriptOf lowerRune es i).bytes)) ∧
      ((∃ s ∈ pool, s.phase = .panicked) ↔ ∀ ev, serverStep lowerRune pool ev = none) := by
  refine ⟨?_, ?_, ?_⟩
  · intro i s hi hsettled
    obtain ⟨h, hout⟩ := outcome_settled hsettled
    rw [← handle_panics_iff hlower (session_handled hrun hi hout), ← outcome_panicked hout]
  · rintro ⟨s, hs, hphase⟩ ev
    refine if_pos (List.any_eq_true.mpr ⟨s, hs, ?_⟩)
    rw [Session.fatal, hphase]
    rfl
  · intro hstuck
    -- another connection could be accepted otherwise
    by_contra hnone
    have hspawn := hstuck .spawn
    rw [serverStep, poolStep, if_neg] at hspawn
    · cases hspawn
    · rw [List.any_eq_true]
      rintro ⟨s, hs, hfatal⟩
      exact hnone ⟨s, hs, of_decide_eq_true hfatal⟩

theorem process_ends_iff_invalid :
    run (serverStep HostHeader.latinLower) [] badClient = some [Session.start, crashed] ∧
      Overrun HostHeader.latinLower (scriptOf HostHeader.latinLower badClient 1).bytes ∧
      ∀ ev, serverStep HostHeader.latinLower [Session.start, crashed] ev = none := by
  obtain ⟨hpanics, hstuck⟩ := process_ends_iff HostHeader.latinLower
    HostHeader.latinLower_asciiOnly badClient _ badClient_run
  exact ⟨badClient_run, (hpanics 1 crashed rfl rfl).mp rfl,
    hstuck.mp ⟨crashed, by simp, rfl⟩⟩

/-- **No session keeps another from delivering.** In every reachable state of the
process, a copier that has not returned in a session that is relaying can deliver all
that its peer has sent, by its own reads and writes alone, whatever the other sessions
do or wait for. -/
theorem relay_delivers (lowerRune : Nat → Nat) (es : List (PoolEvent Session.Event))
    (pool : List Session) (hrun : run (serverStep lowerRune) [] es = some pool)
    (halive : ∀ t ∈ pool, t.phase ≠ .panicked) (i : Nat) (s : Session) (hi : pool[i]? = some s)
    (d : Dir) (dialled : Dialled) (hphase : s.phase = .relaying dialled)
    (hdone : (s.relay.pipe d).done = false) :
    ∃ (pes : List PipeEvent) (p' : Pipe), (∀ e ∈ pes, OfCopier e) ∧
      p'.delivered = (s.relay.pipe d).sent ∧
      run (serverStep lowerRune) pool (pes.map fun e => .on i (.wire (.on d e))) =
        some (pool.set i ⟨s.phase, s.relay.setPipe d p'⟩) := by
  have h := session_intact hrun hi
  have hopen : s.phase.hasEnded = false := by
    rw [hphase]
    rfl
  have hcons : Conserved (s.relay.pipe d) := by
    cases d with
    | down => exact h.down
    | up =>
        have hup := h.up hopen
        rw [hphase, Phase.held, List.append_nil] at hup
        exact hup
  obtain ⟨pes, p', hpes, hplays, hall⟩ := pipe_delivers hdone hcons
  refine ⟨pes, p', hpes, hall, ?_⟩
  have hcalm : ∀ t ∈ pool, t.fatal = false := fun t ht => decide_eq_false (halive t ht)
  have hsession := @session_copies lowerRune s dialled d pes p' hphase (h.ended.trans hopen) hpes
    hplays
  have hpool : run (serverStep lowerRune) pool _ = _ := pool_plays (P := Past) hcalm hi
    (fun t ht => ht.calm) (fun t e t' ht hstep => ht.step hstep) (.inl ⟨dialled, hphase⟩) hsession
  rw [List.map_map] at hpool
  exact hpool

theorem relay_delivers_request :
    ∃ (pes : List PipeEvent) (p' : Pipe), (∀ e ∈ pes, OfCopier e) ∧ p'.delivered = [1, 2] ∧
      run (serverStep id) [gone, served] (pes.map fun e => .on 1 (.wire (.on .down e))) =
        some [gone, ⟨served.phase, served.relay.setPipe .down p'⟩] :=
  relay_delivers id twoClients _ twoClients_run (by decide) 1 served rfl .down _ rfl rfl

end AiInterceptor.Theorems.Sessions
