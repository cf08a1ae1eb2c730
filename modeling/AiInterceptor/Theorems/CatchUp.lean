import AiInterceptor.Lib.Progress
import AiInterceptor.Theorems.EndToEnd

/-!
# The readers catch up

The readers share nothing that could hold one of them up: whatever is in the two rings
and whatever calls are left, there is a next step for one of them until everything is
read and written. The backlog counts these steps, so that every order in which the
readers take them works it off in the same number of them (`readers_catch_up`); then
every connect so far is in the log, and connects are redirected by what the frames have
brought.
-/

namespace AiInterceptor.Theorems.CatchUp

open Lib Bpf Go Agent Agent.Pipeline Capture EndToEnd

/-- A step of one of the two readers. -/
def OfReaders : Event → Prop
  | .readDns | .write _ | .readRedirect => True
  | _ => False

/-- Nothing is left to read or to write. -/
structure CaughtUp (σ : State) : Prop where
  idle : Idle σ
  ring : σ.ring = []

section Backlog

variable (o : ByteOrder) (svc : Service) {ε : Type} (unpack : List UInt8 → Except ε (List RR))

/-- The calls a sample will lead to. -/
def sampleCalls (sample : List UInt8) : List Destination :=
  match readDnsEvent o sample with
  | .process msg => callsFor svc unpack msg
  | _ => []

/-- The reads and calls that are left to do. -/
def backlog (σ : State) : Nat :=
  (σ.dnsRing.map fun sample => 1 + (sampleCalls o svc unpack sample).length).sum +
    σ.calls.length + σ.ring.length

variable {o svc unpack} {maps : Maps} {es : List Event} {σ σ' : State}

theorem backlog_eq_zero : backlog o svc unpack σ = 0 ↔ CaughtUp σ := by
  unfold backlog
  constructor
  · intro h
    refine ⟨⟨?_, ?_⟩, ?_⟩
    · cases hring : σ.dnsRing with
      | nil => rfl
      | cons sample rest =>
          rw [hring, List.map_cons, List.sum_cons] at h
          omega
    · exact List.length_eq_zero_iff.mp (by omega)
    · exact List.length_eq_zero_iff.mp (by omega)
  · rintro ⟨⟨hdns, hcalls⟩, hring⟩
    rw [hdns, hcalls, hring]
    rfl

/-- The reader is alive, and every sample holds a message. -/
structure Sound (o : ByteOrder) (σ : State) : Prop where
  alive : σ.panicked = false
  samples : ∀ sample ∈ σ.dnsRing, ∃ msg, readDnsEvent o sample = .process msg

theorem sound_run (hrun : run (step o svc unpack) (start maps) es = some σ) : Sound o σ := by
  obtain ⟨queued, hin⟩ := inOrder_run hrun
  refine ⟨hin.alive, ?_⟩
  intro sample hsample
  have hmem : readDnsEvent o sample ∈ σ.dnsRing.map (readDnsEvent o) :=
    List.mem_map_of_mem hsample
  rw [hin.ring] at hmem
  obtain ⟨msg, _, hmsg⟩ := List.mem_map.mp hmem
  exact ⟨msg, hmsg.symm⟩

/-- Each step of a reader takes one off the backlog. -/
theorem backlog_step {e : Event} (h : Sound o σ) (he : OfReaders e)
    (hstep : step o svc unpack σ e = some σ') :
    Sound o σ' ∧ backlog o svc unpack σ' + 1 = backlog o svc unpack σ := by
  cases e with
  | frame skb slot | evict key | connect call => exact absurd he id
  | readDns =>
      obtain ⟨sample, rest, hpanic, hcalls, hring, rfl⟩ := step_readDns hstep
      obtain ⟨msg, hmsg⟩ := h.samples sample (by rw [hring]; exact List.mem_cons_self)
      have htake : takeSample o svc unpack { σ with dnsRing := rest } sample =
          { σ with dnsRing := rest, calls := callsFor svc unpack msg } := by
        rw [takeSample, hmsg]
      have hsample : sampleCalls o svc unpack sample = callsFor svc unpack msg := by
        rw [sampleCalls, hmsg]
      rw [htake]
      refine ⟨⟨hpanic, ?_⟩, ?_⟩
      · intro sample' hsample'
        exact h.samples sample' (by rw [hring]; exact List.mem_cons_of_mem _ hsample')
      · unfold backlog
        rw [hring, hcalls, List.map_cons, List.sum_cons, hsample, List.length_nil]
        dsimp only
        omega
  | write now =>
      obtain ⟨d, rest, hpanic, hcalls, rfl⟩ := step_write hstep
      refine ⟨⟨hpanic, h.samples⟩, ?_⟩
      unfold backlog
      rw [hcalls, List.length_cons]
      dsimp only
      omega
  | readRedirect =>
      obtain ⟨sample, rest, hpanic, hring, rfl⟩ := step_readRedirect hstep
      refine ⟨⟨hpanic, h.samples⟩, ?_⟩
      unfold backlog
      rw [hring, List.length_cons]
      dsimp only
      omega

/-- With a backlog, one of the readers has a step: the calls come first. -/
theorem reader_enabled (h : Sound o σ) (hpos : 0 < backlog o svc unpack σ) :
    ∃ e σ', OfReaders e ∧ step o svc unpack σ e = some σ' := by
  cases hcalls : σ.calls with
  | cons d rest =>
      refine ⟨.write 0, { σ with maps := writeDestination o σ.maps d 0, calls := rest },
        trivial, ?_⟩
      simp only [step, h.alive, hcalls]
  | nil =>
      cases hdns : σ.dnsRing with
      | cons sample rest =>
          refine ⟨.readDns, takeSample o svc unpack { σ with dnsRing := rest } sample, trivial, ?_⟩
          simp only [step, h.alive, hcalls, hdns]
      | nil =>
          cases hring : σ.ring with
          | cons sample rest =>
              refine ⟨.readRedirect, { σ with
                ring := rest, log := σ.log ++ (readRedirectEvent o sample).toList }, trivial, ?_⟩
              simp only [step, h.alive, hring]
          | nil =>
              have hzero := (@backlog_eq_zero o svc ε unpack σ).mpr ⟨⟨hdns, hcalls⟩, hring⟩
              omega

theorem readers_workOff : WorksOff (step o svc unpack) OfReaders (Sound o)
    (backlog o svc unpack) :=
  ⟨fun _ _ _ h he hstep => backlog_step h he hstep, fun _ h hpos => reader_enabled h hpos⟩

/-! ## What the readers leave behind -/

/-- The readers bring no messages, evict nothing and connect nowhere. -/
theorem ofReaders_aside {e : Event} (he : OfReaders e) :
    arrival e = [] ∧ (∀ key, e ≠ .evict key) ∧ ∀ call, e ≠ .connect call := by
  cases e with
  | frame skb slot | evict key | connect call => exact absurd he id
  | readDns | write now | readRedirect =>
      refine ⟨rfl, ?_, ?_⟩
      · rintro key ⟨⟩
      · rintro call ⟨⟩

theorem lines_run (hes : ∀ e ∈ es, OfReaders e) (hrun : run (step o svc unpack) σ es = some σ') :
    lines o σ' = lines o σ := by
  induction es generalizing σ with
  | nil =>
      rw [run_nil, Option.some.injEq] at hrun
      rw [hrun]
  | cons e rest ih =>
      obtain ⟨ρ, hstep, hrest⟩ := run_cons.mp hrun
      rw [ih (fun e' he' => hes e' (List.mem_cons_of_mem e he')) hrest,
        lines_step (ofReaders_aside (hes e List.mem_cons_self)).2.2 hstep]

theorem arrival_readers (hes : ∀ e ∈ es, OfReaders e) : es.flatMap arrival = [] :=
  List.flatMap_eq_nil_iff.mpr fun e he => (ofReaders_aside (hes e he)).1

end Backlog

/-- **The readers catch up, in whatever order they work.** After a successful start, from
every state of every run: each run of the readers alone is as long as what it takes off
the backlog, so it has caught up exactly when it is as long as the backlog was; there
always is such a run; and once it has caught up, the log is followed by nothing in the
ring, and if nothing was evicted a connect is redirected to the proxy exactly when a
frame has announced its address. -/
theorem readers_catch_up (o : ByteOrder) (ifindex : GoString → Nat) (plan : Plan) (cfg : Config)
    (n x : Node) (m : Manager) {ε : Type} (unpack : List UInt8 → Except ε (List RR))
    (hstart : (newManager o ifindex plan cfg).run n = (.ok m, x)) :
    ∃ ip ob, parseIP4 cfg.proxyIP = some ip ∧ x.objs m.objs = some ob ∧
      ∀ es σ, run (step o m.dnsSvc unpack) (start ob.maps) es = some σ →
        (∀ own τ, (∀ e ∈ own, OfReaders e) → run (step o m.dnsSvc unpack) σ own = some τ →
          own.length + backlog o m.dnsSvc unpack τ = backlog o m.dnsSvc unpack σ ∧
          (CaughtUp τ ↔ own.length = backlog o m.dnsSvc unpack σ) ∧
          (CaughtUp τ → τ.log = σ.log ++ σ.ring.filterMap (readRedirectEvent o)) ∧
          (CaughtUp τ → (∀ key, .evict key ∉ es) →
            ∀ call, Interception.ConnectOutcome o τ.maps call ip cfg.proxyPort
              (Announced m.dnsSvc unpack es (o.put32 call.ctx.userIp4)))) ∧
        ∃ own τ, (∀ e ∈ own, OfReaders e) ∧ run (step o m.dnsSvc unpack) σ own = some τ ∧
          CaughtUp τ := by
  obtain ⟨ip, hip, hob⟩ := Interception.serving_objs hstart
  refine ⟨ip, _, hip, hob, ?_⟩
  intro es σ hrun
  have hsound := sound_run hrun
  refine ⟨?_, ?_⟩
  · intro own τ hown hτ
    obtain ⟨_, hspent⟩ := readers_workOff.spent hsound hown hτ
    have hlines := lines_run hown hτ
    refine ⟨hspent, ?_, ?_, ?_⟩
    · rw [← @backlog_eq_zero o m.dnsSvc ε unpack τ]
      omega
    · intro hcaught
      rw [lines, hcaught.ring, List.filterMap_nil, List.append_nil] at hlines
      exact hlines
    · intro hcaught hno call
      -- the whole run, up to the end of the catching up
      have hall := run_append.mpr ⟨σ, hrun, hτ⟩
      have harrived : (es ++ own).flatMap arrival = es.flatMap arrival := by
        rw [List.flatMap_append, arrival_readers hown, List.append_nil]
      have hno' : ∀ key, .evict key ∉ es ++ own := by
        intro key hmem
        rcases List.mem_append.mp hmem with hmem | hmem
        · exact hno key hmem
        · exact (ofReaders_aside (hown _ hmem)).2.1 key rfl
      refine Interception.connect_outcome (pipeline_proxyConfig hall) ?_
      rw [known_iff_arrived (fun _ => rfl) hno' hcaught.idle hall, harrived, announced_iff]
  · obtain ⟨own, τ, hown, hτ, _, hzero⟩ := readers_workOff.finishes hsound
    exact ⟨own, τ, hown, hτ, backlog_eq_zero.mp hzero⟩

/-- A first start and a frame that is still in the ring: one read and one write are left,
and after them a connect is redirected. -/
theorem readers_catch_up_openai :
    ∃ m x ob own τ, (newManager .little (fun _ => 2) (fun _ => .ok) agentConfig).run Node.boot =
        (.ok m, x) ∧ x.objs m.objs = some ob ∧
      run (step .little m.dnsSvc openaiUnpack) (start ob.maps) (openaiRun.take 1 ++ own) = some τ ∧
      CaughtUp τ ∧
      Holds .little (cgroupConnect4 .little τ.maps
        (curlConnect .little openaiDestination.ip4 1 6)).ctx ⟨10, 100, 0, 50⟩ 8443 := by
  obtain ⟨ip, ob, hip, hob, h⟩ := readers_catch_up _ _ _ _ _ _ _ openaiUnpack
    Interception.agent_starts
  have hip' : parseIP4 agentConfig.proxyIP = some ⟨10, 100, 0, 50⟩ := by decide
  obtain rfl := Option.some.inj (hip.symm.trans hip')
  obtain ⟨σ, hσ⟩ : ∃ σ, run (step .little ⟨agentConfig.aiDomains⟩ openaiUnpack) (start ob.maps)
      (openaiRun.take 1) = some σ := ⟨_, rfl⟩
  obtain ⟨hevery, own, τ, hown, hτ, hcaught⟩ := h (openaiRun.take 1) σ hσ
  obtain ⟨_, _, _, hconnects⟩ := hevery own τ hown hτ
  refine ⟨_, _, ob, own, τ, Interception.agent_starts, hob, run_append.mpr ⟨σ, hσ, hτ⟩, hcaught, ?_⟩
  have hout := hconnects hcaught (by simp [openaiRun])
    (curlConnect .little openaiDestination.ip4 1 6)
  refine hout.redirected ⟨openaiFrame, Record.zero dnsEventT, 42, 42, openaiAnswer,
    List.mem_cons_self, openaiFrame_accepted, rfl, openaiDestination, ?_, ?_⟩
  · exact (by decide : openaiDestination ∈ (Service.mk agentConfig.aiDomains).processAnswer
      openaiAnswer)
  · exact (destKey_eq .little openaiDestination.ip4).symm

end AiInterceptor.Theorems.CatchUp
