import AiInterceptor.Theorems.Capture

/-!
# What the agent never looks at

`writeDestination` stores the TTL of the record and the time of the write, the hook
stores the time of the connect, and both hooks leave bytes of their ring slots as they
found them. Nothing reads any of it: entries do not expire, and a line of the log has
no field for it. Take two agents whose inputs differ only there and in their frames,
where each pair of frames carries accepted messages with the same answers up to TTLs, or
none of the two is accepted: they stay in `Agree`, redirect the same connects and log
the same lines (`log_noninterference`).
-/

namespace AiInterceptor.Theorems.Noninterference

open Lib Bpf Go Agent Agent.Pipeline Capture FrameSafety

/-! ## Answers up to their TTLs -/

def timelessHeader (hdr : RRHeader) : RRHeader := { hdr with ttl := 0 }

def timelessRR : RR → RR
  | .cname hdr target => .cname (timelessHeader hdr) target
  | .a hdr addr => .a (timelessHeader hdr) addr
  | .other hdr => .other (timelessHeader hdr)

def timelessDestination (d : Destination) : Destination := { d with ttl := 0 }

section Answers

variable (svc : Service) {ε : Type} (unpack : List UInt8 → Except ε (List RR))

theorem cnameStep_timeless (m : StringMap) (rr : RR) :
    svc.cnameStep m (timelessRR rr) = svc.cnameStep m rr := by
  cases rr <;> rfl

theorem aiCNAMEs_timeless (answer : List RR) :
    svc.aiCNAMEs (answer.map timelessRR) = svc.aiCNAMEs answer := by
  unfold Service.aiCNAMEs
  rw [List.foldl_map]
  simp only [cnameStep_timeless]

theorem destinationOf_timeless (m : StringMap) (rr : RR) :
    svc.destinationOf m (timelessRR rr) = (svc.destinationOf m rr).map timelessDestination := by
  cases rr with
  | cname hdr target => rfl
  | other hdr => rfl
  | a hdr addr =>
      simp only [timelessRR, Service.destinationOf]
      cases to4 addr with
      | none => rfl
      | some ip4 => rw [Option.map_map]; rfl

theorem processAnswer_timeless (answer : List RR) :
    svc.processAnswer (answer.map timelessRR) =
      (svc.processAnswer answer).map timelessDestination := by
  unfold Service.processAnswer
  rw [aiCNAMEs_timeless, List.filterMap_map, List.map_filterMap]
  exact List.filterMap_congr fun rr _ => destinationOf_timeless svc _ rr

/-- What the service can learn from a message. -/
def answerOf (msg : List UInt8) : Option (List RR) :=
  (unpack msg).toOption.map (List.map timelessRR)

theorem callsFor_timeless (msg : List UInt8) :
    (callsFor svc unpack msg).map timelessDestination =
      ((answerOf unpack msg).map svc.processAnswer).getD [] := by
  unfold callsFor Service.processDNSEvent answerOf
  cases unpack msg with
  | error e => rfl
  | ok answer => exact (processAnswer_timeless svc answer).symm

end Answers

/-! ## Maps with the same hostnames -/

/-- The proxy entry and the hostnames are what the hook reads of the maps. -/
structure SameHosts (m m' : Maps) : Prop where
  proxy : m.proxyConfig = m'.proxyConfig
  hosts : ∀ key, (m.aiDestinations key).map (·.load .hostname) =
    (m'.aiDestinations key).map (·.load .hostname)

/-- Two connects of one task to one address, at any times and with any stale slots. -/
structure SameConnect (call call' : ConnectCall) : Prop where
  ctx : call.ctx = call'.ctx
  task : call.task = call'.task
  slot : call.slot.isSome = call'.slot.isSome

section Maps

variable {o : ByteOrder} {m m' : Maps}

theorem SameHosts.write (h : SameHosts m m') {d d' : Destination}
    (hd : timelessDestination d = timelessDestination d') (now now' : UInt64) :
    SameHosts (writeDestination o m d now) (writeDestination o m' d' now') := by
  obtain ⟨hip, hhost, _⟩ := Destination.mk.inj hd
  refine ⟨h.proxy, ?_⟩
  intro key
  by_cases hkey : key = destKey o d.ip4
  · have hself := writeDestination_self o m' d' now'
    rw [← hip] at hself
    rw [hkey, writeDestination_self, hself]
    show some (Record.load (L := aiDestInfoT) (destInfo o d now) .hostname) =
      some (Record.load (L := aiDestInfoT) (destInfo o d' now') .hostname)
    rw [destInfo_hostname, destInfo_hostname, hhost]
  · have hother := hkey
    rw [hip] at hother
    rw [writeDestination_of_ne o m d now hkey, writeDestination_of_ne o m' d' now' hother]
    exact h.hosts key

theorem SameHosts.evict (h : SameHosts m m') (key' : List UInt8) :
    SameHosts (m.evict key') (m'.evict key') := by
  refine ⟨h.proxy, ?_⟩
  intro key
  by_cases hkey : key = key'
  · rw [hkey, Maps.evict_self, Maps.evict_self]
  · rw [Maps.evict_of_ne m hkey, Maps.evict_of_ne m' hkey]
    exact h.hosts key

/-- An address is unknown to both, or known to both under one hostname. -/
theorem SameHosts.lookup (h : SameHosts m m') (key : List UInt8) :
    (m.aiDestinations key = none ∧ m'.aiDestinations key = none) ∨
      ∃ info info', m.aiDestinations key = some info ∧ m'.aiDestinations key = some info' ∧
        info.load .hostname = info'.load .hostname := by
  have hhosts := h.hosts key
  cases hm : m.aiDestinations key with
  | none =>
      rw [hm, Option.map_none] at hhosts
      exact .inl ⟨rfl, Option.map_eq_none_iff.mp hhosts.symm⟩
  | some info =>
      rw [hm, Option.map_some] at hhosts
      obtain ⟨info', hinfo', heq⟩ := Option.map_eq_some_iff.mp hhosts.symm
      exact .inr ⟨info, info', rfl, hinfo', heq.symm⟩

theorem SameHosts.ctx (h : SameHosts m m') {call call' : ConnectCall}
    (hcall : SameConnect call call') :
    (cgroupConnect4 o m call).ctx = (cgroupConnect4 o m' call').ctx := by
  rcases h.lookup (o.put32 call.ctx.userIp4) with ⟨hm, hm'⟩ | ⟨info, info', hm, hm', _⟩
  · rw [cgroupConnect4_absent hm, cgroupConnect4_absent (hcall.ctx ▸ hm'), hcall.ctx]
  · rw [cgroupConnect4_present hm, cgroupConnect4_present (hcall.ctx ▸ hm'), hcall.ctx, h.proxy]

theorem SameHosts.line (h : SameHosts m m') {call call' : ConnectCall}
    (hcall : SameConnect call call') {info info' : Record aiDestInfoT}
    (hhost : info.load .hostname = info'.load .hostname) (slot slot' : Record redirectEventT) :
    readRedirectEvent o (eventRecord o m call info slot).bytes =
      readRedirectEvent o (eventRecord o m' call' info' slot').bytes := by
  unfold readRedirectEvent
  rw [ringbufCast_eventRecord, ringbufCast_eventRecord, Option.map_some, Option.map_some,
    hcall.ctx, hcall.task, h.proxy, hhost]

/-- The samples submitted for two such connects are logged as one line. -/
theorem SameHosts.lines (h : SameHosts m m') {call call' : ConnectCall}
    (hcall : SameConnect call call') :
    ((cgroupConnect4 o m call).submitted.map Record.bytes).toList.map (readRedirectEvent o) =
      ((cgroupConnect4 o m' call').submitted.map Record.bytes).toList.map
        (readRedirectEvent o) := by
  rcases h.lookup (o.put32 call.ctx.userIp4) with ⟨hm, hm'⟩ | ⟨info, info', hm, hm', hhost⟩
  · rw [cgroupConnect4_absent hm, cgroupConnect4_absent (hcall.ctx ▸ hm')]
  · rw [cgroupConnect4_submitted hm, cgroupConnect4_submitted (hcall.ctx ▸ hm')]
    have hslot := hcall.slot
    cases hs : call.slot with
    | none =>
        rw [hs] at hslot
        have hs' : call'.slot = none := by
          rw [← Option.not_isSome_iff_eq_none, ← hslot]
          exact Bool.false_ne_true
        simp only [hs', Option.map_none]
    | some slot =>
        rw [hs] at hslot
        obtain ⟨slot', hs'⟩ := Option.isSome_iff_exists.mp hslot.symm
        simp only [hs', Option.map_some, Option.toList_some, List.map_cons, List.map_nil]
        rw [h.line hcall hhost slot slot']

end Maps

/-! ## Lockstep -/

section Lockstep

variable {ε : Type} (unpack : List UInt8 → Except ε (List RR))

/-- Events that differ in nothing the agent makes use of. Either both frames carry an
accepted message, with the same answer up to TTLs or with no answer that unpacks, or
neither does. -/
inductive Alike : Event → Event → Prop
  | frame {skb skb' : Skb} {slot slot' : Option (Record dnsEventT)}
      (hslot : slot.isSome = slot'.isSome)
      (hmsg : (messageIn skb).map (answerOf unpack) = (messageIn skb').map (answerOf unpack)) :
      Alike (.frame skb slot) (.frame skb' slot')
  | readDns : Alike .readDns .readDns
  | write (now now' : UInt64) : Alike (.write now) (.write now')
  | evict (key : List UInt8) : Alike (.evict key) (.evict key)
  | connect {call call' : ConnectCall} (hcall : SameConnect call call') :
      Alike (.connect call) (.connect call')
  | readRedirect : Alike .readRedirect .readRedirect

/-- Agents that have seen the same, up to what neither of them reads. -/
structure Agree (o : ByteOrder) (σ σ' : State) : Prop where
  maps : SameHosts σ.maps σ'.maps
  samples : ∃ queued queued' : List (List UInt8),
    σ.dnsRing.map (readDnsEvent o) = queued.map .process ∧
    σ'.dnsRing.map (readDnsEvent o) = queued'.map .process ∧
    queued.map (answerOf unpack) = queued'.map (answerOf unpack)
  calls : σ.calls.map timelessDestination = σ'.calls.map timelessDestination
  ring : σ.ring.map (readRedirectEvent o) = σ'.ring.map (readRedirectEvent o)
  log : σ.log = σ'.log
  panicked : σ.panicked = σ'.panicked

variable {unpack} {o : ByteOrder} {svc : Service}

theorem agree_start {maps maps' : Maps} (h : SameHosts maps maps') :
    Agree unpack o (start maps) (start maps') :=
  ⟨h, ⟨[], [], rfl, rfl, rfl⟩, rfl, rfl, rfl, rfl⟩

theorem map_messages_alike {skb skb' : Skb} {slot slot' : Option (Record dnsEventT)}
    (hslot : slot.isSome = slot'.isSome)
    (hmsg : (messageIn skb).map (answerOf unpack) = (messageIn skb').map (answerOf unpack)) :
    (slot.bind fun _ => messageIn skb).toList.map (answerOf unpack) =
      (slot'.bind fun _ => messageIn skb').toList.map (answerOf unpack) := by
  cases slot with
  | none =>
      cases slot' with
      | none => rfl
      | some s' => cases hslot
  | some s =>
      cases slot' with
      | none => cases hslot
      | some s' =>
          have hlist := congrArg Option.toList hmsg
          rwa [Option.toList_map, Option.toList_map] at hlist

/-- One step of the first agent is one of the second. -/
theorem agree_step {σ τ σ' : State} {e f : Event} (h : Agree unpack o σ τ)
    (hef : Alike unpack e f) (hstep : step o svc unpack σ e = some σ') :
    ∃ τ', step o svc unpack τ f = some τ' ∧ Agree unpack o σ' τ' := by
  obtain ⟨queued, queued', hq, hq', hqq⟩ := h.samples
  cases hef with
  | @frame skb skb' slot slot' hslot hmsg =>
      rw [step_frame hstep]
      refine ⟨_, rfl, h.maps, ⟨queued ++ (slot.bind fun _ => messageIn skb).toList,
        queued' ++ (slot'.bind fun _ => messageIn skb').toList, ?_, ?_, ?_⟩, h.calls, h.ring,
        h.log, h.panicked⟩
      · rw [List.map_append, List.map_append, hq, submitted_messages]
      · rw [List.map_append, List.map_append, hq', submitted_messages]
      · rw [List.map_append, List.map_append, hqq, map_messages_alike hslot hmsg]
  | readDns =>
      obtain ⟨sample, rest, hpanic, hcalls, hring, rfl⟩ := step_readDns hstep
      -- both agents find a message, and their messages are alike
      rw [hring] at hq
      obtain ⟨msg, queued₁, rfl, hsample, hrest⟩ := List.map_eq_cons_iff.mp hq.symm
      obtain ⟨msg', queued₁', rfl, hmsg, hqueued⟩ := List.map_eq_cons_iff.mp hqq.symm
      obtain ⟨sample', rest', hring', hsample', hrest'⟩ := List.map_eq_cons_iff.mp hq'
      have hcalls' : τ.calls = [] := by
        have := h.calls
        rw [hcalls] at this
        exact List.map_eq_nil_iff.mp this.symm
      refine ⟨takeSample o svc unpack { τ with dnsRing := rest' } sample', ?_, ?_⟩
      · simp only [step, ← h.panicked, hpanic, hcalls', hring']
      · unfold takeSample
        rw [← hsample, hsample']
        refine ⟨h.maps, ⟨queued₁, queued₁', hrest.symm, hrest', hqueued.symm⟩, ?_, h.ring, h.log,
          h.panicked⟩
        show (callsFor svc unpack msg).map _ = (callsFor svc unpack msg').map _
        rw [callsFor_timeless, callsFor_timeless, hmsg]
  | write now now' =>
      obtain ⟨d, rest, hpanic, hcalls, rfl⟩ := step_write hstep
      have hboth := h.calls
      rw [hcalls, List.map_cons] at hboth
      obtain ⟨d', rest', hcalls', hd, hrest⟩ := List.map_eq_cons_iff.mp hboth.symm
      refine ⟨{ τ with maps := writeDestination o τ.maps d' now', calls := rest' }, ?_, ?_⟩
      · simp only [step, ← h.panicked, hpanic, hcalls']
      · exact ⟨h.maps.write hd.symm now now', ⟨queued, queued', hq, hq', hqq⟩, hrest.symm, h.ring,
          h.log, h.panicked⟩
  | evict key =>
      rw [step_evict hstep]
      exact ⟨_, rfl, h.maps.evict key, ⟨queued, queued', hq, hq', hqq⟩, h.calls, h.ring, h.log,
        h.panicked⟩
  | connect hcall =>
      rw [step_connect hstep]
      refine ⟨_, rfl, h.maps, ⟨queued, queued', hq, hq', hqq⟩, h.calls, ?_, h.log, h.panicked⟩
      rw [List.map_append, List.map_append, h.ring, h.maps.lines hcall]
  | readRedirect =>
      obtain ⟨sample, rest, hpanic, hring, rfl⟩ := step_readRedirect hstep
      have hboth := h.ring
      rw [hring, List.map_cons] at hboth
      obtain ⟨sample', rest', hring', hsample, hrest⟩ := List.map_eq_cons_iff.mp hboth.symm
      refine ⟨{ τ with ring := rest', log := τ.log ++ (readRedirectEvent o sample').toList },
        ?_, ?_⟩
      · simp only [step, ← h.panicked, hpanic, hring']
      · refine ⟨h.maps, ⟨queued, queued', hq, hq', hqq⟩, h.calls, hrest.symm, ?_, h.panicked⟩
        show σ.log ++ _ = τ.log ++ _
        rw [h.log, hsample]

end Lockstep

/-- **Time and stale memory never reach the log or a connect.** Two agents with the same
domains run over alike events, from maps with the same hostnames: what one of them can
do the other can, and they log the same lines, hold the same lines in their rings, know
the same addresses under the same hostnames, and do the same to every connect. -/
theorem log_noninterference (o : ByteOrder) (svc : Service) {ε : Type}
    (unpack : List UInt8 → Except ε (List RR)) (maps maps' : Maps) (hmaps : SameHosts maps maps')
    (es es' : List Event) (hes : List.Forall₂ (Alike unpack) es es') (σ : State)
    (hrun : run (step o svc unpack) (start maps) es = some σ) :
    ∃ σ', run (step o svc unpack) (start maps') es' = some σ' ∧ σ'.log = σ.log ∧
      σ'.ring.map (readRedirectEvent o) = σ.ring.map (readRedirectEvent o) ∧
      SameHosts σ.maps σ'.maps ∧
      ∀ call call', SameConnect call call' →
        (cgroupConnect4 o σ'.maps call').ctx = (cgroupConnect4 o σ.maps call).ctx := by
  have hstep : ∀ ρ τ e f ρ', Agree unpack o ρ τ → Alike unpack e f →
      step o svc unpack ρ e = some ρ' →
      ∃ τ', step o svc unpack τ f = some τ' ∧ Agree unpack o ρ' τ' :=
    fun _ _ _ _ _ h hef he => agree_step h hef he
  obtain ⟨σ', hrun', hagree⟩ := run_lockstep hstep (agree_start hmaps) hes hrun
  refine ⟨σ', hrun', hagree.log.symm, hagree.ring.symm, hagree.maps, ?_⟩
  intro call call' hcall
  exact (hagree.maps.ctx hcall).symm

/-! ## Two answers with different TTLs -/

/-- The same response with a TTL of 256 in place of 300 seconds. -/
def shortLivedFrame : Skb := ⟨openaiFrame.bytes.set 77 0, by decide⟩

theorem shortLivedFrame_accepted : Accepted shortLivedFrame.bytes 42 42 := by
  refine ⟨⟨?_, by decide +kernel, by decide +kernel, by decide, by decide⟩, ?_⟩
  · exact @PayloadAt.udp shortLivedFrame.bytes 0x45 (by decide +kernel) (by decide +kernel)
      (by decide +kernel) (by decide +kernel)
  · exact ⟨by decide +kernel, by decide +kernel, by decide +kernel⟩

/-- The decoder on both responses. -/
def ttlUnpack (msg : List UInt8) : Except Unit (List RR) :=
  .ok [.a ⟨ascii "api.openai.com.", ByteOrder.big.get32 (readAt msg 32 4)⟩ [104, 18, 6, 192]]

/-- A slot with stale bytes. -/
def staleSlot : Record redirectEventT :=
  ⟨List.replicate redirectEventT.total 0xff, List.length_replicate⟩

def openaiConnect : ConnectCall := curlConnect .little openaiDestination.ip4 1 6

def shortLivedRun : List Event :=
  [.frame shortLivedFrame (some (Record.zero dnsEventT)), .readDns, .write 2]

theorem openaiRun_alike : List.Forall₂ (Alike ttlUnpack) openaiRun shortLivedRun := by
  refine .cons (.frame rfl ?_) (.cons .readDns (.cons (.write 1 2) .nil))
  rw [messageIn_accepted openaiFrame_accepted, messageIn_accepted shortLivedFrame_accepted]
  rfl

/-- The answers arrive, are written at different times, and a later connect is reported
in slots with different contents: the TTLs differ, but the hostnames and the line for
the connect do not. -/
theorem log_noninterference_openai :
    ttlUnpack (readAt openaiFrame.bytes 42 42) ≠ ttlUnpack (readAt shortLivedFrame.bytes 42 42) ∧
      ∃ σ σ',
        run (step .little ⟨agentConfig.aiDomains⟩ ttlUnpack) (start Maps.empty)
          (openaiRun ++ [.connect openaiConnect]) = some σ ∧
        run (step .little ⟨agentConfig.aiDomains⟩ ttlUnpack) (start Maps.empty)
          (shortLivedRun ++ [.connect { openaiConnect with ktimeNs := 7, slot := some staleSlot }]) =
            some σ' ∧
        σ'.ring.map (readRedirectEvent .little) = σ.ring.map (readRedirectEvent .little) ∧
        SameHosts σ.maps σ'.maps := by
  refine ⟨by decide +kernel, ?_⟩
  have hcalls : (Service.mk agentConfig.aiDomains).processAnswer openaiAnswer =
      [openaiDestination] := by decide
  have hrun := @answer_run .little _ _ ttlUnpack _ _ _ _ _ openaiFrame_accepted (by decide +kernel)
    hcalls Maps.empty (Record.zero dnsEventT) 1
  obtain ⟨σ, hσ⟩ : ∃ σ, run (step .little ⟨agentConfig.aiDomains⟩ ttlUnpack) (start Maps.empty)
      (openaiRun ++ [.connect openaiConnect]) = some σ := ⟨_, run_append.mpr ⟨_, hrun, rfl⟩⟩
  have halike : List.Forall₂ (Alike ttlUnpack) (openaiRun ++ [.connect openaiConnect])
      (shortLivedRun ++ [.connect { openaiConnect with ktimeNs := 7, slot := some staleSlot }]) :=
    List.rel_append openaiRun_alike (.cons (.connect ⟨rfl, rfl, rfl⟩) .nil)
  obtain ⟨σ', hσ', _, hring, hhosts, _⟩ := log_noninterference .little ⟨agentConfig.aiDomains⟩
    ttlUnpack Maps.empty Maps.empty ⟨rfl, fun _ => rfl⟩ _ _ halike σ hσ
  exact ⟨σ, σ', hσ, hσ', hring, hhosts⟩

end AiInterceptor.Theorems.Noninterference
