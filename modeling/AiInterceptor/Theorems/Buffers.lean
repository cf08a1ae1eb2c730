import AiInterceptor.Theorems.TlsRouting

/-!
# What the proxy holds in memory

A session holds the bytes it has peeked until they are forwarded, and from then on what
is in its two copy buffers; never both. The largest thing it can peek is a TLS record
with its header, so that a proxy with any number of clients holds at most that or two
full copy buffers for each of them (`buffers_bounded`), however slowly they send or
receive.
-/

namespace AiInterceptor.Theorems.Buffers

open Lib Go Proxy Proxy.Phase Sessions Teardown TlsRouting

/-- A record of the largest size, with its header. -/
def maxHeld : Nat := 1 + tlsRecordHdrTail + 65535

section Session

variable {lowerRune : Nat → Nat} {s s' : Session} {ev : Session.Event} {es : List Session.Event}

/-! ## Peeked bytes -/

/-- In a phase that waits for a read, there is room for no more than a record. -/
theorem held_room {bytes : List UInt8} {phase : Phase} (h : Routed bytes phase)
    (hroom : 0 < phase.room) : phase.held.length + phase.room ≤ maxHeld := by
  have htail : tlsRecordHdrTail = 4 := rfl
  unfold maxHeld
  cases phase with
  | first =>
      rw [held, room, List.length_nil]
      omega
  | header b got =>
      obtain ⟨_, _, hgot⟩ := h
      rw [held, room, List.length_cons]
      omega
  | record b hdr recLen got =>
      obtain ⟨_, _, hhdr, hrec, hgot⟩ := h
      obtain ⟨len, _, hlen⟩ := Option.map_eq_some_iff.mp hrec
      have hmax : len.toNat < 65536 := len.toNat_lt
      rw [held, room, List.length_cons, List.length_append]
      omega
  | head buf =>
      have hlimit : httpMaxHeaderBuf = 16384 := rfl
      have hread : httpReadBufSize = 4096 := rfl
      by_cases hbuf : buf.length < httpMaxHeaderBuf
      · rw [held, room, if_pos hbuf]
        omega
      · rw [room, if_neg hbuf] at hroom
        cases hroom
  | dialing d | forwarding d | relaying d | closed why | panicked => cases hroom

theorem held_ended {phase : Phase} (h : phase.hasEnded = true) : phase.held = [] := by
  cases phase with
  | closed why | panicked => rfl
  | first | header b got | record b hdr recLen got | head buf | dialing d | forwarding d
  | relaying d => cases h

theorem held_afterWire (phase : Phase) (e : Relay.Event) :
    (Session.afterWire phase e).held = phase.held := by
  cases e with
  | on d pe => rfl
  | teardown =>
      cases phase with
      | first | header b got | record b hdr recLen got | head buf | dialing d | forwarding d
      | relaying d | closed why | panicked => rfl

/-- One step keeps to the bound, from a state that a run has led to. -/
theorem held_step {bytes : List UInt8} (hrouted : Routed bytes s.phase)
    (h : s.phase.held.length ≤ maxHeld) (hstep : Session.step lowerRune s ev = some s') :
    s'.phase.held.length ≤ maxHeld := by
  rcases Session.step_cases hstep with ⟨e, relay, rfl, _, _, rfl⟩ |
    ⟨n, err, rfl, hroom, hfits, hin, rfl⟩ | ⟨d, hphase, ⟨rfl, rfl⟩ | ⟨rfl, rfl⟩⟩ |
    ⟨d, hphase, ⟨rfl, rfl⟩ | ⟨n, rfl, rfl⟩⟩
  · show (Session.afterWire s.phase e).held.length ≤ maxHeld
    rw [held_afterWire]
    exact h
  · show (s.phase.read lowerRune (s.taken n) err).held.length ≤ maxHeld
    cases hend : (s.phase.read lowerRune (s.taken n) err).hasEnded with
    | true =>
        rw [held_ended hend]
        exact Nat.zero_le _
    | false =>
        have hlen := taken_length hin
        have hmax := held_room hrouted hroom
        rw [held_read hroom (hlen.trans_le hfits) hend, List.length_append, hlen]
        omega
  · rw [hphase] at h
    exact h
  · exact Nat.zero_le _
  · exact Nat.zero_le _
  · exact Nat.zero_le _

theorem held_run (hrun : run (Session.step lowerRune) Session.start es = some s) :
    s.phase.held.length ≤ maxHeld := by
  refine run_from (P := fun _ ρ => ρ.phase.held.length ≤ maxHeld) (Nat.zero_le _) ?_ hrun
  intro hist ρ e ρ' hhist h hstep
  exact held_step (routed_run hhist) h hstep

/-! ## Copy buffers -/

theorem buf_step {torn : Bool} {p p' : Pipe} {e : PipeEvent} (h : p.buf.length ≤ copyBufSize)
    (hstep : Pipe.step torn p e = some p') : p'.buf.length ≤ copyBufSize := by
  cases e with
  | read n =>
      simp only [Pipe.step] at hstep
      split at hstep
      · cases hstep
      · rename_i hcan
        obtain rfl := Option.some.inj hstep
        have hn : n ≤ copyBufSize := by
          by_contra hlt
          exact hcan (.inr (.inr (.inr (.inr (.inl (Nat.not_le.mp hlt))))))
        exact (List.length_take_le n p.inbound).trans hn
  | send bytes | halfClose | write | eof | fail =>
      rcases pipe_step_cases hstep with ⟨bytes', _, _, rfl⟩ | ⟨_, _, rfl⟩ | ⟨n, he, _⟩ |
        ⟨_, _, rfl⟩ | ⟨_, _, _, _, rfl⟩ | ⟨_, rfl⟩
      · exact h
      · exact h
      · cases he
      · exact Nat.zero_le _
      · exact h
      · exact h

/-- The copy buffers are bounded, and empty as long as the relay has not started. -/
structure Copies (s : Session) : Prop where
  up : s.relay.up.buf.length ≤ copyBufSize
  down : s.relay.down.buf.length ≤ copyBufSize
  idle : s.phase.isRelaying = false → s.phase.hasEnded = false →
    s.relay.up.buf = [] ∧ s.relay.down.buf = []

theorem Copies.step (h : Copies s) (hstep : Session.step lowerRune s ev = some s') :
    Copies s' := by
  rcases Session.step_cases hstep with ⟨e, relay, rfl, hadmits, hrelay, rfl⟩ |
    ⟨n, err, rfl, hroom, _, _, rfl⟩ | ⟨d, hphase, ⟨rfl, rfl⟩ | ⟨rfl, rfl⟩⟩ |
    ⟨d, hphase, ⟨rfl, rfl⟩ | ⟨n, rfl, rfl⟩⟩
  · have hbuf : ∀ torn p e p', p.buf.length ≤ copyBufSize → Pipe.step torn p e = some p' →
        p'.buf.length ≤ copyBufSize := fun torn p e p' hp hs => buf_step hp hs
    refine ⟨pipes_step hbuf hrelay .up h.up, pipes_step hbuf hrelay .down h.down, ?_⟩
    intro hrelaying hended
    rcases admits_cases hadmits with ⟨d, hphase⟩ | ⟨d, pe, rfl, hpe, _⟩
    · -- from the relay a step leads to the relay or to the end
      rw [hphase] at hrelaying hended
      cases e with
      | on d' pe => cases hrelaying
      | teardown => cases hended
    · obtain ⟨hup, hdown⟩ := h.idle hrelaying hended
      obtain ⟨p', hp, rfl⟩ := Option.map_eq_some_iff.mp hrelay
      obtain ⟨_, hsame, _⟩ := peer_step hp hpe
      cases d with
      | up => exact ⟨hsame.trans hup, hdown⟩
      | down => exact ⟨hup, hsame.trans hdown⟩
  · refine ⟨h.up, h.down, ?_⟩
    intro _ _
    refine h.idle ?_ ?_
    · cases hphase : s.phase with
      | relaying d =>
          rw [hphase] at hroom
          cases hroom
      | first | header b got | record b hdr recLen got | head buf | dialing d | forwarding d
      | closed why | panicked => rfl
    · cases hphase : s.phase with
      | closed why | panicked =>
          rw [hphase] at hroom
          cases hroom
      | first | header b got | record b hdr recLen got | head buf | dialing d | forwarding d
      | relaying d => rfl
  all_goals
    refine ⟨h.up, h.down, ?_⟩
    intro _ _
    exact h.idle (by rw [hphase]; rfl) (by rw [hphase]; rfl)

theorem copies_run (hrun : run (Session.step lowerRune) Session.start es = some s) : Copies s :=
  run_invariant (fun _ _ _ h hstep => Copies.step h hstep)
    ⟨Nat.zero_le _, Nat.zero_le _, fun _ _ => ⟨rfl, rfl⟩⟩ hrun

/-- What a session that has not returned holds of its peers' bytes. -/
def holds (s : Session) : Nat :=
  if s.phase.hasEnded then 0
  else s.phase.held.length + s.relay.up.buf.length + s.relay.down.buf.length

/-- An open session has peeked bytes or copied ones. -/
theorem held_or_copied (hrun : run (Session.step lowerRune) Session.start es = some s)
    (hopen : s.phase.hasEnded = false) :
    s.phase.held = [] ∨ s.relay.up.buf = [] ∧ s.relay.down.buf = [] := by
  cases hphase : s.phase with
  | relaying d => exact .inl rfl
  | closed why | panicked =>
      rw [hphase] at hopen
      cases hopen
  | first | header b got | record b hdr recLen got | head buf | dialing d | forwarding d =>
      exact .inr ((copies_run hrun).idle (by rw [hphase]; rfl) hopen)

theorem holds_run (hrun : run (Session.step lowerRune) Session.start es = some s) :
    holds s ≤ max maxHeld (2 * copyBufSize) := by
  have hheld := held_run hrun
  have hcopies := copies_run hrun
  unfold holds
  split
  · exact Nat.zero_le _
  · rename_i hopen
    rcases held_or_copied hrun (Bool.eq_false_iff.mpr hopen) with hnone | ⟨hup, hdown⟩
    · have hup := hcopies.up
      have hdown := hcopies.down
      rw [hnone, List.length_nil]
      omega
    · rw [hup, hdown]
      exact le_max_of_le_left hheld

end Session

/-- **A session never holds more than a TLS record or two copy buffers.** In every run
of the proxy, each session that has not returned has peeked at most 65,540 bytes, has at
most a full buffer for each direction, and has nothing in these as long as it has peeked
bytes; and all sessions together hold at most the larger of the two for each of those
that have not returned, whatever their clients and upstreams send or refuse to take. -/
theorem buffers_bounded (lowerRune : Nat → Nat) (es : List (PoolEvent Session.Event))
    (pool : List Session) (hrun : run (serverStep lowerRune) [] es = some pool) :
    (∀ s ∈ pool, s.phase.hasEnded = false →
      s.phase.held.length ≤ 65540 ∧ s.relay.up.buf.length ≤ copyBufSize ∧
      s.relay.down.buf.length ≤ copyBufSize ∧
      (s.phase.held = [] ∨ s.relay.up.buf = [] ∧ s.relay.down.buf = []) ∧
      s.phase.held.length + s.relay.up.buf.length + s.relay.down.buf.length ≤
        max 65540 (2 * copyBufSize)) ∧
      (pool.map holds).sum ≤
        max 65540 (2 * copyBufSize) * (pool.filter fun s => !s.phase.hasEnded).length := by
  have hown : ∀ s ∈ pool, ∃ es, run (Session.step lowerRune) Session.start es = some s := by
    intro s hs
    obtain ⟨i, hi⟩ := List.mem_iff_getElem?.mp hs
    exact ⟨_, (pool_own hrun).1 i s hi⟩
  have hall : ∀ s ∈ pool, holds s ≤ max 65540 (2 * copyBufSize) := by
    intro s hs
    obtain ⟨es, hes⟩ := hown s hs
    exact holds_run hes
  refine ⟨?_, ?_⟩
  · intro s hs hopen
    obtain ⟨es, hes⟩ := hown s hs
    have hcopies := copies_run hes
    refine ⟨held_run hes, hcopies.up, hcopies.down, held_or_copied hes hopen, ?_⟩
    have hle := hall s hs
    rwa [holds, if_neg (by simp [hopen])] at hle
  · clear hrun hown
    induction pool with
    | nil => exact Nat.zero_le _
    | cons s rest ih =>
        have hrest := ih fun t ht => hall t (List.mem_cons_of_mem s ht)
        have hs := hall s List.mem_cons_self
        rw [List.map_cons, List.sum_cons, List.filter_cons]
        cases hend : s.phase.hasEnded with
        | true =>
            have hzero : holds s = 0 := by rw [holds, if_pos hend]
            rw [hzero, Nat.zero_add]
            exact hrest
        | false =>
            show holds s + (rest.map holds).sum ≤
              max 65540 (2 * copyBufSize) * (s :: rest.filter _).length
            rw [List.length_cons, Nat.mul_succ]
            omega

/-- Two clients of which one has been answered in part. -/
theorem buffers_bounded_request :
    run (serverStep id) [] twoClients = some [gone, served] ∧
      ([gone, served].map holds).sum ≤ max 65540 (2 * copyBufSize) :=
  ⟨twoClients_run, (buffers_bounded id twoClients _ twoClients_run).2⟩

end AiInterceptor.Theorems.Buffers
