import AiInterceptor.Theorems.AuditLog
import AiInterceptor.Theorems.Capture

/-!
# From frames to connects

The pipeline is a data plane whose messages come out of frames, one at a time: it
answers to the same maps, rings and log, step by step (`pipeline_refines`). So what
holds over all runs of the data plane holds of the pipeline, and the frames of a run
decide which of its connects are redirected (`frame_to_redirect`).
-/

namespace AiInterceptor.Theorems.EndToEnd

open Lib Bpf Go Agent Capture FrameSafety

section Calls

variable {svc : Service} {ε : Type} {unpack : List UInt8 → Except ε (List RR)}

theorem callsFor_ok {msg : List UInt8} {answer : List RR} (h : unpack msg = .ok answer) :
    Pipeline.callsFor svc unpack msg = svc.processAnswer answer := by
  rw [Pipeline.callsFor, Service.processDNSEvent, h]
  rfl

theorem callsFor_error {msg : List UInt8} {err : ε} (h : unpack msg = .error err) :
    Pipeline.callsFor svc unpack msg = [] := by
  rw [Pipeline.callsFor, Service.processDNSEvent, h]
  rfl

theorem mem_callsFor {msg : List UInt8} {d : Destination} :
    d ∈ Pipeline.callsFor svc unpack msg ↔
      ∃ answer, unpack msg = .ok answer ∧ d ∈ svc.processAnswer answer := by
  cases h : unpack msg with
  | ok answer =>
      rw [callsFor_ok h]
      simp
  | error err =>
      rw [callsFor_error h]
      simp

end Calls

/-! ## The data plane below -/

/-- What both systems show. -/
inductive Shown
  | message (answer : List RR)
  | write (d : Destination) (now : UInt64)
  | evict (key : List UInt8)
  | connect (call : ConnectCall)
  | readRedirect

def planeShows : DataPlane.Event → List Shown
  | .dnsMessage answer => [.message answer]
  | .write _ d now => [.write d now]
  | .evict key => [.evict key]
  | .connect call => [.connect call]
  | .readRedirect => [.readRedirect]

section Refinement

variable {o : ByteOrder} {svc : Service} {ε : Type} {unpack : List UInt8 → Except ε (List RR)}

/-- The message a sample brings to the service, if it unpacks. -/
def shownMessage (o : ByteOrder) (unpack : List UInt8 → Except ε (List RR))
    (sample : List UInt8) : List Shown :=
  match readDnsEvent o sample with
  | .process msg =>
      match unpack msg with
      | .ok answer => [.message answer]
      | .error _ => []
  | _ => []

def pipelineShows (o : ByteOrder) (unpack : List UInt8 → Except ε (List RR))
    (σ : Pipeline.State) : Pipeline.Event → List Shown
  | .frame _ _ => []
  | .readDns => σ.dnsRing.head?.toList.flatMap (shownMessage o unpack)
  | .write now => (σ.calls.head?.map fun d => .write d now).toList
  | .evict key => [.evict key]
  | .connect call => [.connect call]
  | .readRedirect => [.readRedirect]

/-- The two agree on what they share. All messages but the last have made their
calls, and the last has those left that the reader has in hand. -/
structure Matches (σ : Pipeline.State) (τ : DataPlane.State) : Prop where
  maps : τ.maps = σ.maps
  ring : τ.ring = σ.ring
  log : τ.log = σ.log
  pending : (σ.calls = [] ∧ DataPlane.Drained τ) ∨
    ∃ before, (∀ calls ∈ before, calls = []) ∧ τ.pending = before ++ [σ.calls]

/-- Whatever the reader has in hand, the messages before have made their calls. -/
theorem Matches.before {σ : Pipeline.State} {τ : DataPlane.State} (h : Matches σ τ)
    (hidle : σ.calls = []) : DataPlane.Drained τ := by
  rcases h.pending with ⟨_, hdrained⟩ | ⟨before, hbefore, hpending⟩
  · exact hdrained
  · intro calls hmem
    rw [hpending, hidle, List.mem_append, List.mem_singleton] at hmem
    exact hmem.elim (hbefore calls) id

theorem matches_readDns {σ σ' : Pipeline.State} {τ : DataPlane.State} (h : Matches σ τ)
    (hstep : Pipeline.step o svc unpack σ .readDns = some σ') :
    ∃ fs τ', run (DataPlane.step o svc) τ fs = some τ' ∧ Matches σ' τ' ∧
      fs.flatMap planeShows = pipelineShows o unpack σ .readDns := by
  obtain ⟨sample, rest, _, hcalls, hring, rfl⟩ := Pipeline.step_readDns hstep
  have hdrained := h.before hcalls
  have hshow : pipelineShows o unpack σ .readDns = shownMessage o unpack sample := by
    rw [pipelineShows, hring]
    exact List.append_nil _
  rw [hshow, Pipeline.takeSample, shownMessage]
  cases hread : readDnsEvent o sample with
  | skip => exact ⟨[], τ, rfl, ⟨h.maps, h.ring, h.log, .inl ⟨hcalls, hdrained⟩⟩, rfl⟩
  | panic => exact ⟨[], τ, rfl, ⟨h.maps, h.ring, h.log, .inl ⟨hcalls, hdrained⟩⟩, rfl⟩
  | process msg =>
      cases hun : unpack msg with
      | error err =>
          refine ⟨[], τ, rfl, ⟨h.maps, h.ring, h.log, .inl ⟨?_, hdrained⟩⟩, ?_⟩
          · exact callsFor_error hun
          · simp only [hun]
            rfl
      | ok answer =>
          refine ⟨[.dnsMessage answer], _, rfl, ⟨h.maps, h.ring, h.log, .inr ?_⟩, ?_⟩
          · refine ⟨τ.pending, hdrained, ?_⟩
            show τ.pending ++ [svc.processAnswer answer] = _
            rw [← callsFor_ok hun]
          · simp only [hun]
            rfl

theorem matches_write {σ σ' : Pipeline.State} {τ : DataPlane.State} {now : UInt64}
    (h : Matches σ τ) (hstep : Pipeline.step o svc unpack σ (.write now) = some σ') :
    ∃ fs τ', run (DataPlane.step o svc) τ fs = some τ' ∧ Matches σ' τ' ∧
      fs.flatMap planeShows = pipelineShows o unpack σ (.write now) := by
  obtain ⟨d, rest, _, hcalls, rfl⟩ := Pipeline.step_write hstep
  -- the message in hand is the last one
  rcases h.pending with ⟨hnil, _⟩ | ⟨before, hbefore, hpending⟩
  · rw [hcalls] at hnil
    cases hnil
  · rw [hcalls] at hpending
    have hmsg : τ.pending[before.length]? = some (d :: rest) := by
      rw [hpending]
      simp
    have hnext : DataPlane.step o svc τ (.write before.length d now) =
        some { τ with maps := writeDestination o τ.maps d now
                      pending := τ.pending.set before.length rest } := by
      simp only [DataPlane.step, hmsg, if_true]
    refine ⟨[.write before.length d now], _, run_cons.mpr ⟨_, hnext, rfl⟩,
      ⟨?_, h.ring, h.log, .inr ?_⟩, ?_⟩
    · show writeDestination o τ.maps d now = writeDestination o σ.maps d now
      rw [h.maps]
    · refine ⟨before, hbefore, ?_⟩
      show τ.pending.set before.length rest = before ++ [rest]
      rw [hpending]
      simp
    · rw [pipelineShows, hcalls]
      rfl

/-- The pipeline is a data plane. -/
theorem pipeline_simulates :
    Simulates (Pipeline.step o svc unpack) (pipelineShows o unpack) (DataPlane.step o svc)
      planeShows Matches := by
  refine ⟨?_⟩
  intro σ τ e σ' h hstep
  cases e with
  | frame skb slot =>
      obtain rfl := Pipeline.step_frame hstep
      exact ⟨[], τ, rfl, ⟨h.maps, h.ring, h.log, h.pending⟩, rfl⟩
  | readDns => exact matches_readDns h hstep
  | write now => exact matches_write h hstep
  | evict key =>
      obtain rfl := Pipeline.step_evict hstep
      refine ⟨[.evict key], _, rfl, ⟨?_, h.ring, h.log, h.pending⟩, rfl⟩
      show τ.maps.evict key = σ.maps.evict key
      rw [h.maps]
  | connect call =>
      obtain rfl := Pipeline.step_connect hstep
      refine ⟨[.connect call], _, rfl, ⟨h.maps, ?_, h.log, h.pending⟩, rfl⟩
      show τ.ring ++ ((cgroupConnect4 o τ.maps call).submitted.map Record.bytes).toList = _
      rw [h.ring, h.maps]
  | readRedirect =>
      obtain ⟨sample, rest, _, hring, rfl⟩ := Pipeline.step_readRedirect hstep
      have hnext : DataPlane.step o svc τ .readRedirect =
          some { τ with ring := rest, log := τ.log ++ (readRedirectEvent o sample).toList } := by
        simp only [DataPlane.step, h.ring, hring]
      refine ⟨[.readRedirect], _, run_cons.mpr ⟨_, hnext, rfl⟩, ⟨h.maps, rfl, ?_, h.pending⟩, rfl⟩
      show τ.log ++ _ = σ.log ++ _
      rw [h.log]

theorem matches_start (maps : Maps) : Matches (Pipeline.start maps) (DataPlane.start maps) :=
  ⟨rfl, rfl, rfl, .inl ⟨rfl, fun _ hmem => absurd hmem List.not_mem_nil⟩⟩

theorem pipeline_answered {maps : Maps} {es : List Pipeline.Event} {σ : Pipeline.State}
    (hrun : run (Pipeline.step o svc unpack) (Pipeline.start maps) es = some σ) :
    ∃ fs τ, run (DataPlane.step o svc) (DataPlane.start maps) fs = some τ ∧ Matches σ τ ∧
      fs.flatMap planeShows =
        trace (Pipeline.step o svc unpack) (pipelineShows o unpack) (Pipeline.start maps) es :=
  pipeline_simulates.run (matches_start maps) hrun

end Refinement

/-- **Every run of the pipeline is a run of the data plane.** Its messages are those
the reader takes out of the ring, its writes, evictions, connects and reads those of
the pipeline, in the same order; maps, ring and log are the same, and no message has a
call left when the reader has none in hand. -/
theorem pipeline_refines (o : ByteOrder) (svc : Service) {ε : Type}
    (unpack : List UInt8 → Except ε (List RR)) (maps : Maps) (es : List Pipeline.Event)
    (σ : Pipeline.State)
    (hrun : run (Pipeline.step o svc unpack) (Pipeline.start maps) es = some σ) :
    ∃ fs τ, run (DataPlane.step o svc) (DataPlane.start maps) fs = some τ ∧
      fs.flatMap planeShows =
        trace (Pipeline.step o svc unpack) (pipelineShows o unpack) (Pipeline.start maps) es ∧
      τ.maps = σ.maps ∧ τ.ring = σ.ring ∧ τ.log = σ.log ∧
      (σ.calls = [] → DataPlane.Drained τ) := by
  obtain ⟨fs, τ, hfs, hmatch, hshow⟩ := pipeline_answered hrun
  exact ⟨fs, τ, hfs, hshow, hmatch.maps, hmatch.ring, hmatch.log, hmatch.before⟩

theorem pipeline_refines_openai :
    ∃ fs τ, run (DataPlane.step .little ⟨agentConfig.aiDomains⟩) (DataPlane.start Maps.empty) fs =
        some τ ∧ DataPlane.Drained τ := by
  obtain ⟨fs, τ, hfs, _, _, _, _, hdrained⟩ := pipeline_refines .little ⟨agentConfig.aiDomains⟩
    openaiUnpack Maps.empty openaiRun _ (openaiRun_ends Maps.empty)
  exact ⟨fs, τ, hfs, hdrained rfl⟩

/-! ## The audit trail of a pipeline -/

section Audit

variable {o : ByteOrder} {svc : Service} {ε : Type} {unpack : List UInt8 → Except ε (List RR)}
  {ip : Ip4} {port : UInt16}

open AuditLog

/-- One observation on the audit. -/
def auditShown (o : ByteOrder) (ip : Ip4) (port : UInt16) (a : Audit) : Shown → Audit
  | .message _ => a
  | .write d now => a.step o ip port (.write 0 d now)
  | .evict key => a.step o ip port (.evict key)
  | .connect call => a.step o ip port (.connect call)
  | .readRedirect => a

/-- The audit only depends on what is shown. -/
theorem audit_shown (a : Audit) (fs : List DataPlane.Event) :
    fs.foldl (Audit.step o ip port) a =
      (fs.flatMap planeShows).foldl (auditShown o ip port) a := by
  induction fs generalizing a with
  | nil => rfl
  | cons f rest ih =>
      rw [List.foldl_cons, ih, List.flatMap_cons, List.foldl_append]
      cases f <;> rfl

def Shown.written : Shown → Option Destination
  | .write d _ => some d
  | _ => none

theorem shownMessage_written (o : ByteOrder) (unpack : List UInt8 → Except ε (List RR))
    (sample : List UInt8) : (shownMessage o unpack sample).filterMap Shown.written = [] := by
  rw [shownMessage]
  split
  · split <;> rfl
  · rfl

/-- The calls made are the writes that are shown. -/
theorem made_eq_shown (σ : Pipeline.State) (es : List Pipeline.Event) :
    trace (Pipeline.step o svc unpack) made σ es =
      (trace (Pipeline.step o svc unpack) (pipelineShows o unpack) σ es).filterMap
        Shown.written := by
  rw [filterMap_trace]
  congr 1
  funext τ e
  cases e with
  | write now =>
      rw [made, pipelineShows]
      cases τ.calls <;> rfl
  | readDns =>
      rw [pipelineShows]
      cases τ.dnsRing with
      | nil => rfl
      | cons sample rest =>
          rw [List.head?_cons, Option.toList_some, List.flatMap_singleton, shownMessage_written]
          rfl
  | frame skb slot | evict key | connect call | readRedirect => rfl

/-- The destinations written stem from the messages that have arrived. -/
theorem written_arrived {maps : Maps} {es : List Pipeline.Event} {σ : Pipeline.State}
    (hrun : run (Pipeline.step o svc unpack) (Pipeline.start maps) es = some σ)
    {d : Destination} {now : UInt64}
    (h : .write d now ∈ trace (Pipeline.step o svc unpack) (pipelineShows o unpack)
      (Pipeline.start maps) es) :
    d ∈ (es.flatMap arrival).flatMap (Pipeline.callsFor svc unpack) := by
  obtain ⟨queued, hin⟩ := inOrder_run hrun
  have hmade : d ∈ trace (Pipeline.step o svc unpack) made (Pipeline.start maps) es := by
    rw [made_eq_shown, List.mem_filterMap]
    exact ⟨_, h, rfl⟩
  rw [hin.messages, List.flatMap_append, ← hin.calls]
  exact List.mem_append_left _ (List.mem_append_left _ hmade)

/-- From an empty map, every run of the data plane keeps the audit. -/
theorem refines_run {maps : Maps} (hproxy : maps.proxyConfig = proxyValue o ip port)
    (hempty : ∀ key, maps.aiDestinations key = none) {fs : List DataPlane.Event}
    {τ : DataPlane.State} (hnul : ∀ msg d now, .write msg d now ∈ fs → 0 ∉ d.hostname)
    (hrun : run (DataPlane.step o svc) (DataPlane.start maps) fs = some τ) :
    Refines o ip port τ (fs.foldl (Audit.step o ip port) ⟨fun _ => none, []⟩) := by
  refine run_from (P := fun hist ρ => (∀ msg d now, .write msg d now ∈ hist → 0 ∉ d.hostname) →
    Refines o ip port ρ (hist.foldl (Audit.step o ip port) ⟨fun _ => none, []⟩)) ?_ ?_ hrun hnul
  · intro _
    refine ⟨hproxy, ?_, rfl⟩
    intro key
    have hnone : (DataPlane.start maps).maps.aiDestinations key = none := hempty key
    rw [hnone]
    rfl
  · intro hist ρ f ρ' _ h hstep hnul'
    rw [List.foldl_append]
    refine (h fun msg d now hmem => hnul' msg d now (List.mem_append_left _ hmem)).step ?_ hstep
    rintro msg d now rfl
    exact hnul' msg d now (by simp)

/-- What a run of the pipeline has logged, and what is still in the ring. -/
theorem audit_run {maps : Maps} (hproxy : maps.proxyConfig = proxyValue o ip port)
    (hempty : ∀ key, maps.aiDestinations key = none) {es : List Pipeline.Event}
    {σ : Pipeline.State}
    (hrun : run (Pipeline.step o svc unpack) (Pipeline.start maps) es = some σ)
    (hnul : ∀ d ∈ (es.flatMap arrival).flatMap (Pipeline.callsFor svc unpack), 0 ∉ d.hostname) :
    σ.log ++ σ.ring.filterMap (readRedirectEvent o) =
      ((trace (Pipeline.step o svc unpack) (pipelineShows o unpack) (Pipeline.start maps) es).foldl
        (auditShown o ip port) ⟨fun _ => none, []⟩).lines := by
  obtain ⟨fs, τ, hfs, hmatch, hshow⟩ := pipeline_answered hrun
  have hes : ∀ msg d now, .write msg d now ∈ fs → 0 ∉ d.hostname := by
    intro msg d now hmem
    have hshown : Shown.write d now ∈ fs.flatMap planeShows :=
      List.mem_flatMap.mpr ⟨_, hmem, List.mem_singleton.mpr rfl⟩
    rw [hshow] at hshown
    exact hnul d (written_arrived hrun hshown)
  have hrefines : AuditLog.Refines o ip port τ _ := refines_run hproxy hempty hes hfs
  rw [← hmatch.log, ← hmatch.ring, hrefines.lines, audit_shown, hshow]

end Audit

/-- **The log is the audit trail of the frames and connects.** From a successful start,
over every run in which the names the answers give are free of NUL bytes: what is
logged and what is in the ring are the lines of the audit that follows the pipeline,
each connect under the host its address was last written for. -/
theorem audit_of_frames (o : ByteOrder) (ifindex : GoString → Nat) (plan : Plan) (cfg : Config)
    (n x : Node) (m : Manager) {ε : Type} (unpack : List UInt8 → Except ε (List RR))
    (hstart : (newManager o ifindex plan cfg).run n = (.ok m, x)) :
    ∃ ip ob, parseIP4 cfg.proxyIP = some ip ∧ x.objs m.objs = some ob ∧
      ∀ es σ, run (Pipeline.step o m.dnsSvc unpack) (Pipeline.start ob.maps) es = some σ →
        (∀ d ∈ (es.flatMap arrival).flatMap (Pipeline.callsFor m.dnsSvc unpack),
          0 ∉ d.hostname) →
        σ.log ++ σ.ring.filterMap (readRedirectEvent o) =
          ((trace (Pipeline.step o m.dnsSvc unpack) (pipelineShows o unpack)
            (Pipeline.start ob.maps) es).foldl (auditShown o ip cfg.proxyPort)
              ⟨fun _ => none, []⟩).lines := by
  obtain ⟨ip, hip, hob⟩ := Interception.serving_objs hstart
  refine ⟨ip, _, hip, hob, ?_⟩
  intro es σ hrun hnul
  exact audit_run rfl (fun _ => rfl) hrun hnul

section Sample

/-- A connect to a known address, and the read of its event. -/
theorem connect_read {o : ByteOrder} {svc : Service} {ε : Type}
    {unpack : List UInt8 → Except ε (List RR)} {ip : Ip4} {port : UInt16}
    {σ : Pipeline.State} {call : ConnectCall} {info : Record aiDestInfoT}
    {slot : Record redirectEventT} {host : GoString}
    (hproxy : σ.maps.proxyConfig = proxyValue o ip port)
    (hinfo : σ.maps.aiDestinations (o.put32 call.ctx.userIp4) = some info)
    (hhost : nullTermString (info.load .hostname) = host.take 64)
    (hslot : call.slot = some slot) (hring : σ.ring = []) (halive : σ.panicked = false) :
    run (Pipeline.step o svc unpack) σ [.connect call, .readRedirect] =
      some { σ with log := σ.log ++ [AuditLog.redirectLine o ip port host call] } := by
  have hread := @AuditLog.readRedirectEvent_event o ip port σ.maps call info host slot hproxy hhost
  obtain ⟨maps, dnsRing, calls, ring, log, panicked⟩ := σ
  obtain rfl : ring = [] := hring
  obtain rfl : panicked = false := halive
  simp only [run, Pipeline.step, cgroupConnect4_submitted hinfo, hslot, Option.map_some,
    Option.toList_some, List.nil_append, Option.bind_some, hread]

/-- The answer for `api.openai.com`, then a connect to its address and the read of the
event. -/
def servedRun : List Pipeline.Event :=
  openaiRun ++ [.connect (curlConnect .little openaiDestination.ip4 1 6), .readRedirect]

theorem openaiDestination_nul_free : 0 ∉ openaiDestination.hostname := by decide +kernel

theorem servedRun_ends {maps : Maps} {ip : Ip4} {port : UInt16}
    (hproxy : maps.proxyConfig = proxyValue .little ip port) :
    run (Pipeline.step .little ⟨agentConfig.aiDomains⟩ openaiUnpack) (Pipeline.start maps)
        servedRun =
      some ⟨writeDestination .little maps openaiDestination 1, [], [], [],
        [AuditLog.redirectLine .little ip port openaiDestination.hostname
          (curlConnect .little openaiDestination.ip4 1 6)], false⟩ := by
  have hhost : nullTermString (Record.load (L := aiDestInfoT)
      (destInfo .little openaiDestination 1) .hostname) = openaiDestination.hostname.take 64 := by
    rw [destInfo_hostname, AuditLog.nullTermString_hostnameField openaiDestination_nul_free]
  refine run_append.mpr ⟨_, openaiRun_ends maps, ?_⟩
  exact connect_read hproxy (writeDestination_self .little maps openaiDestination 1) hhost rfl rfl
    rfl

/-- The sample decoder gives no name with a NUL, whatever the messages. -/
theorem openaiUnpack_nul_free {msgs : List (List UInt8)} :
    ∀ d ∈ msgs.flatMap (Pipeline.callsFor ⟨agentConfig.aiDomains⟩ openaiUnpack),
      0 ∉ d.hostname := by
  have hone : (Service.mk agentConfig.aiDomains).processAnswer openaiAnswer =
      [openaiDestination] := by decide
  intro d hd
  obtain ⟨msg, _, hcall⟩ := List.mem_flatMap.mp hd
  obtain ⟨answer, hun, hcall⟩ := mem_callsFor.mp hcall
  cases hun
  rw [hone, List.mem_singleton] at hcall
  rw [hcall]
  exact openaiDestination_nul_free

end Sample

/-- A first start, and a connect redirected and logged: one line, that of the audit. -/
theorem audit_of_frames_openai :
    ∃ m x ip ob σ, (newManager .little (fun _ => 2) (fun _ => .ok) agentConfig).run Node.boot =
        (.ok m, x) ∧ x.objs m.objs = some ob ∧
      run (Pipeline.step .little m.dnsSvc openaiUnpack) (Pipeline.start ob.maps) servedRun =
        some σ ∧
      σ.log.length = 1 ∧
      σ.log ++ σ.ring.filterMap (readRedirectEvent .little) =
        ((trace (Pipeline.step .little m.dnsSvc openaiUnpack) (pipelineShows .little openaiUnpack)
          (Pipeline.start ob.maps) servedRun).foldl (auditShown .little ip agentConfig.proxyPort)
            ⟨fun _ => none, []⟩).lines := by
  obtain ⟨ip, ob, _, hob, h⟩ := audit_of_frames _ _ _ _ _ _ _ openaiUnpack
    Interception.agent_starts
  obtain rfl := Option.some.inj ((afterAttach_objs _).symm.trans hob)
  have hrun := @servedRun_ends (servingObjects .little ⟨10, 100, 0, 50⟩ 8443).maps _ _ rfl
  exact ⟨_, _, ip, _, _, Interception.agent_starts, hob, hrun, rfl,
    h servedRun _ hrun openaiUnpack_nul_free⟩

/-! ## The lines of the log -/

section Lines

variable {o : ByteOrder} {svc : Service} {ε : Type} {unpack : List UInt8 → Except ε (List RR)}
  {σ σ' : Pipeline.State} {e : Pipeline.Event}

/-- All lines, written and on their way. -/
def lines (o : ByteOrder) (σ : Pipeline.State) : List RedirectLine :=
  σ.log ++ σ.ring.filterMap (readRedirectEvent o)

/-- Only a connect adds a line, and none is lost. -/
theorem lines_step (he : ∀ call, e ≠ .connect call)
    (hstep : Pipeline.step o svc unpack σ e = some σ') : lines o σ' = lines o σ := by
  cases e with
  | connect call => exact absurd rfl (he call)
  | frame skb slot =>
      rw [Pipeline.step_frame hstep]
      rfl
  | readDns =>
      obtain ⟨sample, rest, _, _, _, rfl⟩ := Pipeline.step_readDns hstep
      rw [Pipeline.takeSample]
      split <;> rfl
  | write now =>
      obtain ⟨d, rest, _, _, rfl⟩ := Pipeline.step_write hstep
      rfl
  | evict key =>
      rw [Pipeline.step_evict hstep]
      rfl
  | readRedirect =>
      obtain ⟨sample, rest, _, hring, rfl⟩ := Pipeline.step_readRedirect hstep
      show σ.log ++ (readRedirectEvent o sample).toList ++ rest.filterMap (readRedirectEvent o) = _
      rw [lines, hring, List.append_assoc, List.filterMap_cons]
      cases readRedirectEvent o sample <;> rfl

end Lines

/-! ## Which connects are redirected -/

section Redirect

variable {o : ByteOrder} {svc : Service} {ε : Type} {unpack : List UInt8 → Except ε (List RR)}
  {maps : Maps} {es : List Pipeline.Event} {σ : Pipeline.State}

/-- A frame of the run has brought an answer that gives this address to a service. -/
def Announced (svc : Service) (unpack : List UInt8 → Except ε (List RR))
    (es : List Pipeline.Event) (key : List UInt8) : Prop :=
  ∃ skb slot p n answer, .frame skb (some slot) ∈ es ∧ Accepted skb.bytes p n ∧
    unpack (readAt skb.bytes p n) = .ok answer ∧ DataPlane.Writes svc answer key

theorem mem_arrivals {msg : List UInt8} :
    msg ∈ es.flatMap arrival ↔ ∃ skb slot p n, .frame skb (some slot) ∈ es ∧
      Accepted skb.bytes p n ∧ msg = readAt skb.bytes p n := by
  rw [List.mem_flatMap]
  constructor
  · rintro ⟨e, he, hmsg⟩
    cases e with
    | frame skb slot =>
        cases slot with
        | none => exact absurd hmsg List.not_mem_nil
        | some slot =>
            have hin : messageIn skb = some msg := Option.mem_toList.mp hmsg
            obtain ⟨p, n, hacc, heq⟩ := messageIn_eq_some.mp hin
            exact ⟨skb, slot, p, n, he, hacc, heq⟩
    | readDns | write now | evict key | connect call | readRedirect =>
        exact absurd hmsg List.not_mem_nil
  · rintro ⟨skb, slot, p, n, he, hacc, rfl⟩
    exact ⟨_, he, Option.mem_toList.mpr (messageIn_accepted hacc)⟩

/-- The frames of a run bring the messages that arrive. -/
theorem announced_iff {key : List UInt8} :
    Announced svc unpack es key ↔
      ∃ msg ∈ es.flatMap arrival, ∃ answer, unpack msg = .ok answer ∧
        DataPlane.Writes svc answer key := by
  constructor
  · rintro ⟨skb, slot, p, n, answer, he, hacc, hun, hw⟩
    exact ⟨_, mem_arrivals.mpr ⟨skb, slot, p, n, he, hacc, rfl⟩, answer, hun, hw⟩
  · rintro ⟨msg, hmsg, answer, hun, hw⟩
    obtain ⟨skb, slot, p, n, he, hacc, rfl⟩ := mem_arrivals.mp hmsg
    exact ⟨skb, slot, p, n, answer, he, hacc, hun, hw⟩

/-- Without evictions, what is known has been written. -/
theorem known_iff_made (hempty : ∀ key, maps.aiDestinations key = none)
    (hno : ∀ key, .evict key ∉ es)
    (hrun : run (Pipeline.step o svc unpack) (Pipeline.start maps) es = some σ)
    (key : List UInt8) :
    (σ.maps.aiDestinations key).isSome ↔
      ∃ d ∈ trace (Pipeline.step o svc unpack) made (Pipeline.start maps) es,
        d.ip4.bytes = key := by
  have hreplay := replayed_run hempty hrun key
  have hevict := eviction_eq_evicted hrun
  have hwrites : ∀ op ∈ trace (Pipeline.step o svc unpack) mapOps (Pipeline.start maps) es,
      ∃ d, op = .write d := by
    intro op hop
    cases op with
    | write d => exact ⟨d, rfl⟩
    | evict key' =>
        have hmem : key' ∈ es.flatMap eviction := by
          rw [hevict, List.mem_filterMap]
          exact ⟨_, hop, rfl⟩
        obtain ⟨e, he, hkey⟩ := List.mem_flatMap.mp hmem
        cases e with
        | evict key'' => exact absurd he (hno key'')
        | frame skb slot | readDns | write now | connect call | readRedirect =>
            exact absurd hkey List.not_mem_nil
  rw [made_eq_written, ← Option.isSome_map, hreplay, Option.isSome_map,
    Option.isSome_iff_exists]
  constructor
  · rintro ⟨host, htable⟩
    obtain ⟨op, hlast, _⟩ := tableOf_eq_some.mp htable
    obtain ⟨hop, hkey⟩ := hlast.mem
    obtain ⟨d, rfl⟩ := hwrites op hop
    exact ⟨d, List.mem_filterMap.mpr ⟨_, hop, rfl⟩, hkey⟩
  · rintro ⟨d, hd, rfl⟩
    obtain ⟨op, hop, hwritten⟩ := List.mem_filterMap.mp hd
    obtain ⟨d', rfl⟩ := hwrites op hop
    obtain rfl := Option.some.inj hwritten
    obtain ⟨last, hlast⟩ : ∃ last, LastOn MapOp.key _ d'.ip4.bytes last := exists_lastOn hop
    obtain ⟨d'', rfl⟩ := hwrites last hlast.mem.1
    exact ⟨d''.hostname, tableOf_eq_some.mpr ⟨_, hlast, rfl⟩⟩

/-- Nothing is on its way to the map. -/
def Idle (σ : Pipeline.State) : Prop := σ.dnsRing = [] ∧ σ.calls = []

/-- An idle agent without evictions knows what the messages that have arrived write. -/
theorem known_iff_arrived (hempty : ∀ key, maps.aiDestinations key = none)
    (hno : ∀ key, .evict key ∉ es) (hidle : Idle σ)
    (hrun : run (Pipeline.step o svc unpack) (Pipeline.start maps) es = some σ)
    (key : List UInt8) :
    (σ.maps.aiDestinations key).isSome ↔
      ∃ msg ∈ es.flatMap arrival, ∃ answer, unpack msg = .ok answer ∧
        DataPlane.Writes svc answer key := by
  obtain ⟨queued, hin⟩ := inOrder_run hrun
  have hqueued : queued = [] := by
    have hread := hin.ring
    rw [hidle.1] at hread
    exact List.map_eq_nil_iff.mp hread.symm
  have hmade := hin.calls
  rw [hidle.2, List.append_nil] at hmade
  rw [known_iff_made hempty hno hrun, hin.messages, hqueued, List.append_nil, hmade]
  constructor
  · rintro ⟨d, hd, hkey⟩
    obtain ⟨msg, hmsg, hcall⟩ := List.mem_flatMap.mp hd
    obtain ⟨answer, hun, hcall⟩ := mem_callsFor.mp hcall
    exact ⟨msg, hmsg, answer, hun, d, hcall, hkey⟩
  · rintro ⟨msg, hmsg, answer, hun, d, hcall, hkey⟩
    exact ⟨d, List.mem_flatMap.mpr ⟨msg, hmsg, mem_callsFor.mpr ⟨answer, hun, hcall⟩⟩, hkey⟩

theorem pipeline_proxyConfig
    (hrun : run (Pipeline.step o svc unpack) (Pipeline.start maps) es = some σ) :
    σ.maps.proxyConfig = maps.proxyConfig := by
  obtain ⟨fs, τ, hfs, hmatch, _⟩ := pipeline_answered hrun
  rw [← hmatch.maps]
  exact DataPlane.run_proxyConfig hfs

end Redirect

/-- **From a frame to a redirected connect.** After a successful start, in every run
without evictions at whose end the DNS reader is idle, a connect goes to the configured
proxy exactly when a frame that found a slot in the ring has brought an answer that
gives its address to a configured domain, and is left alone otherwise. -/
theorem frame_to_redirect (o : ByteOrder) (ifindex : GoString → Nat) (plan : Plan) (cfg : Config)
    (n x : Node) (m : Manager) {ε : Type} (unpack : List UInt8 → Except ε (List RR))
    (hstart : (newManager o ifindex plan cfg).run n = (.ok m, x)) :
    ∃ ip ob, parseIP4 cfg.proxyIP = some ip ∧ x.objs m.objs = some ob ∧
      ∀ es σ, run (Pipeline.step o m.dnsSvc unpack) (Pipeline.start ob.maps) es = some σ →
        (∀ key, .evict key ∉ es) → σ.dnsRing = [] → σ.calls = [] →
        ∀ call, Interception.ConnectOutcome o σ.maps call ip cfg.proxyPort
          (Announced m.dnsSvc unpack es (o.put32 call.ctx.userIp4)) := by
  obtain ⟨ip, hip, hob⟩ := Interception.serving_objs hstart
  refine ⟨ip, _, hip, hob, ?_⟩
  intro es σ hrun hno hring hcalls call
  refine Interception.connect_outcome (pipeline_proxyConfig hrun) ?_
  rw [known_iff_arrived (fun _ => rfl) hno ⟨hring, hcalls⟩ hrun, announced_iff]

theorem frame_to_redirect_openai :
    ∃ m x ob σ, (newManager .little (fun _ => 2) (fun _ => .ok) agentConfig).run Node.boot =
        (.ok m, x) ∧ x.objs m.objs = some ob ∧
      run (Pipeline.step .little m.dnsSvc openaiUnpack) (Pipeline.start ob.maps) openaiRun =
        some σ ∧
      Holds .little (cgroupConnect4 .little σ.maps
        (curlConnect .little openaiDestination.ip4 1 6)).ctx ⟨10, 100, 0, 50⟩ 8443 := by
  obtain ⟨ip, ob, hip, hob, h⟩ := frame_to_redirect _ _ _ _ _ _ _ openaiUnpack
    Interception.agent_starts
  have hip' : parseIP4 agentConfig.proxyIP = some ⟨10, 100, 0, 50⟩ := by decide
  obtain rfl := Option.some.inj (hip.symm.trans hip')
  have hrun := openaiRun_ends ob.maps
  refine ⟨_, _, ob, _, Interception.agent_starts, hob, hrun, ?_⟩
  have hout := h openaiRun _ hrun (by simp [openaiRun]) rfl rfl
    (curlConnect .little openaiDestination.ip4 1 6)
  refine hout.redirected ⟨openaiFrame, Record.zero dnsEventT, 42, 42, openaiAnswer,
    List.mem_cons_self, openaiFrame_accepted, rfl, openaiDestination, ?_, ?_⟩
  · exact (by decide : openaiDestination ∈ (Service.mk agentConfig.aiDomains).processAnswer
      openaiAnswer)
  · exact (destKey_eq .little openaiDestination.ip4).symm

end AiInterceptor.Theorems.EndToEnd
