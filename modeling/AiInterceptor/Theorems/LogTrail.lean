import AiInterceptor.Agent.Log
import AiInterceptor.Theorems.Destinations
import AiInterceptor.Theorems.LogAddresses

/-!
# The agent's log explains itself

With its debug lines, those for ring read errors left aside, the log of the agent is a
complete account of the data path. Every line is justified by the lines in front of it:
a chain is extended only where it was started, an address is redirected only after it
was resolved, under the name it was resolved for. And the lines for the resolved
addresses are the contents of `ai_destinations`, to which every update is made: the last
one for an address is its entry (`log_explains`).
-/

namespace AiInterceptor.Theorems.LogTrail

open Lib Bpf Go Agent Agent.Pipeline Destinations EndToEnd

/-! ## Lines -/

section Lines

variable {ε : Type} {svc : Service} {log new pre : List (LogLine ε)} {line : LogLine ε}

/-- A chain has come to this target, from this domain. -/
def link : LogLine ε → Option (GoString × GoString)
  | .cnameChainStarted aiDomain cnameTarget => some (cnameTarget, aiDomain)
  | .cnameChainExtended aiDomain _ cnameTarget => some (cnameTarget, aiDomain)
  | _ => none

/-- What has to stand in front of a line. -/
def Explains (svc : Service) (pre : List (LogLine ε)) : LogLine ε → Prop
  | .cnameChainStarted aiDomain _ => svc.isAIDomain aiDomain = true
  | .cnameChainExtended aiDomain via _ => ∃ line ∈ pre, link line = some (via, aiDomain)
  | .aiDomainResolved hostname _ _ => svc.isAIDomain hostname = true
  | .dnsParseError _ => True
  | .redirectEventTooSmall _ => False
  | .aiTrafficRedirected line => ∃ hostname ttlS,
      .aiDomainResolved hostname line.originalIp ttlS ∈ pre ∧
        line.originalHost = nullTermString (hostnameField hostname)

theorem Explains.mono (h : Explains svc log line) (hsub : log ⊆ new) : Explains svc new line := by
  cases line with
  | cnameChainStarted aiDomain cnameTarget => exact h
  | cnameChainExtended aiDomain via cnameTarget =>
      obtain ⟨line, hmem, hlink⟩ := h
      exact ⟨line, hsub hmem, hlink⟩
  | aiDomainResolved hostname ip ttlS => exact h
  | dnsParseError err => exact h
  | redirectEventTooSmall got => exact h
  | aiTrafficRedirected line =>
      obtain ⟨hostname, ttlS, hmem, hhost⟩ := h
      exact ⟨hostname, ttlS, hsub hmem, hhost⟩

/-- The name and TTL a line gives for an address. -/
def resolves (ip4 : Ip4) : LogLine ε → Option (GoString × UInt32)
  | .aiDomainResolved hostname ip ttlS => if ip = ipString ip4 then some (hostname, ttlS) else none
  | _ => none

/-- A line about a redirect. -/
def redirectOf : LogLine ε → Option RedirectLine
  | .aiTrafficRedirected line => some line
  | _ => none

/-- The last name and TTL the log gives for an address. -/
def lastResolved (log : List (LogLine ε)) (ip4 : Ip4) : Option (GoString × UInt32) :=
  (log.filterMap (resolves ip4)).getLast?

theorem lastResolved_mem {ip4 : Ip4} {hostname : GoString} {ttlS : UInt32}
    (h : lastResolved log ip4 = some (hostname, ttlS)) :
    .aiDomainResolved hostname (ipString ip4) ttlS ∈ log := by
  obtain ⟨line, hline, hres⟩ := List.mem_filterMap.mp (List.mem_of_getLast? h)
  cases line with
  | aiDomainResolved hostname' ip ttlS' =>
      rw [resolves] at hres
      split at hres
      · rename_i hip
        obtain ⟨rfl, rfl⟩ := Prod.mk.inj (Option.some.inj hres)
        rwa [hip] at hline
      · cases hres
  | cnameChainStarted aiDomain cnameTarget | cnameChainExtended aiDomain via cnameTarget
  | dnsParseError err | redirectEventTooSmall got | aiTrafficRedirected line => cases hres

/-- Lines that resolve nothing. -/
theorem lastResolved_silent {ip4 : Ip4} (h : ∀ line ∈ new, resolves ip4 line = none) :
    lastResolved (log ++ new) ip4 = lastResolved log ip4 := by
  have hnone : new.filterMap (resolves ip4) = [] := List.filterMap_eq_nil_iff.mpr h
  rw [lastResolved, List.filterMap_append, hnone, List.append_nil]
  rfl

theorem ipString_injective {ip4 ip4' : Ip4} (h : ipString ip4 = ipString ip4') : ip4 = ip4' := by
  have hparse := congrArg parseIP4 h
  rw [LogAddresses.parseIP4_ipString, LogAddresses.parseIP4_ipString, Option.some.injEq] at hparse
  exact hparse

theorem lastResolved_resolved (d : Destination) (ip4 : Ip4) :
    lastResolved (log ++ [resolvedLine d]) ip4 =
      if d.ip4 = ip4 then some (d.hostname, d.ttl) else lastResolved log ip4 := by
  by_cases hip : d.ip4 = ip4
  · subst hip
    have hres : resolves d.ip4 (resolvedLine d : LogLine ε) = some (d.hostname, d.ttl) := if_pos rfl
    rw [if_pos rfl, lastResolved, List.filterMap_append, List.filterMap_cons_some hres,
      List.filterMap_nil, List.getLast?_concat]
  · rw [if_neg hip]
    apply lastResolved_silent
    intro line hline
    rw [List.mem_singleton.mp hline]
    exact if_neg fun h => hip (ipString_injective h)

end Lines

/-! ## The CNAME lines of a message -/

section Cname

variable {ε : Type} {svc : Service} {m : StringMap} {rr : RR} {log : List (LogLine ε)}

/-- The map holds only what the log has linked. -/
def Linked (log : List (LogLine ε)) (m : StringMap) : Prop :=
  ∀ tgt origin, m tgt = some origin → ∃ line ∈ log, link line = some (tgt, origin)

theorem Linked.mono {new : List (LogLine ε)} (h : Linked log m) (hsub : log ⊆ new) :
    Linked new m := by
  intro tgt origin hm
  obtain ⟨line, hline, hlink⟩ := h tgt origin hm
  exact ⟨line, hsub hline, hlink⟩

theorem Linked.update {line : LogLine ε} {tgt origin : GoString} (h : Linked log m)
    (hlink : link line = some (tgt, origin)) :
    Linked (log ++ [line]) (Function.update m tgt (some origin)) := by
  intro t org hm
  by_cases ht : t = tgt
  · subst ht
    rw [Function.update_self] at hm
    obtain rfl := Option.some.inj hm
    exact ⟨line, List.mem_append_right _ List.mem_cons_self, hlink⟩
  · rw [Function.update_of_ne ht] at hm
    exact h.mono (List.subset_append_left _ _) t org hm

/-- One record: its line is explained, and it links what it stores. -/
theorem cname_record (h : Linked log m) (hlog : Justified (Explains svc) log) (rr : RR) :
    Linked (log ++ (svc.cnameLine m rr).toList) (svc.cnameStep m rr) ∧
      Justified (Explains svc) (log ++ (svc.cnameLine m rr).toList) := by
  have hnothing : Linked (log ++ []) m ∧ Justified (Explains svc) (log ++ []) := by
    rw [List.append_nil]
    exact ⟨h, hlog⟩
  cases rr with
  | a hdr addr | other hdr => exact hnothing
  | cname hdr target =>
      simp only [Service.cnameLine, Service.cnameStep]
      cases hai : svc.isAIDomain (trimDot hdr.name) with
      | true =>
          simp only [if_true, Option.toList_some]
          exact ⟨h.update rfl, hlog.snoc hai⟩
      | false =>
          simp only [Bool.false_eq_true, if_false]
          cases horigin : m (trimDot hdr.name) with
          | none => exact hnothing
          | some origin =>
              simp only [Option.map_some, Option.toList_some]
              exact ⟨h.update rfl, hlog.snoc (h _ origin horigin)⟩

theorem cnameLines_justified (h : Linked log m) (hlog : Justified (Explains svc) log)
    (answer : List RR) : Justified (Explains svc) (log ++ svc.cnameLines m answer) := by
  induction answer generalizing log m with
  | nil =>
      rw [Service.cnameLines, List.append_nil]
      exact hlog
  | cons rr rest ih =>
      obtain ⟨hnext, hlog'⟩ := cname_record h hlog rr
      rw [Service.cnameLines, ← List.append_assoc]
      exact ih hnext hlog'

/-- The first loop logs nothing but links. -/
theorem cnameLines_link (answer : List RR) :
    ∀ line ∈ (svc.cnameLines m answer : List (LogLine ε)), (link line).isSome = true := by
  induction answer generalizing m with
  | nil =>
      intro line hline
      cases hline
  | cons rr rest ih =>
      intro line hline
      rcases List.mem_append.mp hline with hfirst | hrest
      · cases rr with
        | a hdr addr | other hdr => cases hfirst
        | cname hdr target =>
            simp only [Service.cnameLine] at hfirst
            split at hfirst
            · rw [List.mem_singleton.mp hfirst]
              rfl
            · cases horigin : m (trimDot hdr.name) with
              | none =>
                  rw [horigin] at hfirst
                  cases hfirst
              | some origin =>
                  rw [horigin] at hfirst
                  rw [List.mem_singleton.mp hfirst]
                  rfl
      · exact ih line hrest

theorem link_silent {line : LogLine ε} (h : (link line).isSome = true) (ip4 : Ip4) :
    resolves ip4 line = none ∧ redirectOf line = none := by
  cases line with
  | cnameChainStarted aiDomain cnameTarget => exact ⟨rfl, rfl⟩
  | cnameChainExtended aiDomain via cnameTarget => exact ⟨rfl, rfl⟩
  | aiDomainResolved hostname ip ttlS | dnsParseError err | redirectEventTooSmall got
  | aiTrafficRedirected line => cases h

theorem cnameLines_silent (answer : List RR) (ip4 : Ip4) :
    ∀ line ∈ (svc.cnameLines m answer : List (LogLine ε)), resolves ip4 line = none :=
  fun line hline => (link_silent (cnameLines_link answer line hline) ip4).1

/-- Destinations are written under names of AI domains. -/
theorem processAnswer_ai {answer : List RR} {d : Destination} (h : d ∈ svc.processAnswer answer) :
    svc.isAIDomain d.hostname = true := by
  obtain ⟨rr, _, hrr⟩ := List.mem_filterMap.mp h
  obtain ⟨hdr, addr, _, _, _, hhost⟩ := destinationOf_eq_some.mp hrr
  unfold Service.aiHostname at hhost
  split at hhost
  · rename_i hai
    rwa [← Option.some.inj hhost]
  · split at hhost
    · cases horigin : svc.aiCNAMEs answer (trimDot hdr.name) with
      | none =>
          rename_i hne
          rw [horigin] at hne
          exact absurd rfl hne
      | some origin =>
          rw [horigin, Option.getD_some] at hhost
          obtain rfl := Option.some.inj hhost
          obtain ⟨i, _, hto⟩ := (cnameMap_spec svc answer).sound _ _ horigin
          obtain ⟨hops, hchain, _⟩ := hto.toChain
          exact hchain.ai
    · cases hhost

end Cname

/-! ## Runs -/

section Runs

variable {o : ByteOrder} {svc : Service} {ε : Type} {unpack : List UInt8 → Except ε (List RR)}
  {maps : Maps} {es : List Event} {σ σ' : State} {e : Event} {log : List (LogLine ε)}

/-- An entry as the log has it. -/
def Matches (o : ByteOrder) (log : List (LogLine ε)) (ip4 : Ip4) (info : Record aiDestInfoT) :
    Prop :=
  ∃ hostname ttlS, lastResolved log ip4 = some (hostname, ttlS) ∧
    info.load .hostname = hostnameField hostname ∧ info.load .ttlS = o.put32 ttlS

/-- What the log so far says about the state. -/
structure Trail (o : ByteOrder) (svc : Service) (log : List (LogLine ε)) (σ : State) : Prop where
  justified : Justified (Explains svc) log
  entries : ∀ ip4 info, σ.maps.aiDestinations ip4.bytes = some info → Matches o log ip4 info
  calls : ∀ d ∈ σ.calls, svc.isAIDomain d.hostname = true
  ring : ∀ sample ∈ σ.ring, ∃ line, readRedirectEvent o sample = some line ∧
    Explains svc log (.aiTrafficRedirected line)

theorem destInfo_ttlS (d : Destination) (now : UInt64) :
    Record.load (L := aiDestInfoT) (destInfo o d now) .ttlS = o.put32 d.ttl :=
  Record.load_storeAll (L := goAiDestInfoT) (by simp [destStores]) (by simp [destStores])

/-- A line that resolves nothing leaves the entries as they are. -/
theorem Matches.silent {new : List (LogLine ε)} {ip4 : Ip4} {info : Record aiDestInfoT}
    (h : Matches o log ip4 info) (hnew : ∀ line ∈ new, resolves ip4 line = none) :
    Matches o (log ++ new) ip4 info := by
  rw [Matches, lastResolved_silent hnew]
  exact h

theorem Trail.ring_mono {new : List (LogLine ε)} (h : Trail o svc log σ) :
    ∀ sample ∈ σ.ring, ∃ line, readRedirectEvent o sample = some line ∧
      Explains svc (log ++ new) (.aiTrafficRedirected line) := by
  intro sample hsample
  obtain ⟨line, hread, hline⟩ := h.ring sample hsample
  exact ⟨line, hread, hline.mono (List.subset_append_left _ _)⟩

/-- A step that writes nothing and logs only lines that resolve nothing. -/
theorem Trail.silent {new : List (LogLine ε)} (h : Trail o svc log σ)
    (hnew : ∀ ip4, ∀ line ∈ new, resolves ip4 line = none)
    (hlog : Justified (Explains svc) (log ++ new)) (hmaps : σ'.maps = σ.maps)
    (hcalls : ∀ d ∈ σ'.calls, svc.isAIDomain d.hostname = true) (hring : σ'.ring ⊆ σ.ring) :
    Trail o svc (log ++ new) σ' := by
  refine ⟨hlog, ?_, hcalls, fun sample hsample => h.ring_mono sample (hring hsample)⟩
  intro ip4 info hinfo
  rw [hmaps] at hinfo
  exact (h.entries ip4 info hinfo).silent (hnew ip4)

/-- A message: the lines of its chains, or that of its error. -/
theorem Trail.readDns {sample : List UInt8} {rest : List (List UInt8)} (h : Trail o svc log σ)
    (hring : σ.dnsRing = sample :: rest) :
    Trail o svc (log ++ logged svc o unpack σ .readDns)
      (takeSample o svc unpack { σ with dnsRing := rest } sample) := by
  simp only [logged, hring, takeSample]
  cases readDnsEvent o sample with
  | skip | panic =>
      rw [List.append_nil]
      exact ⟨h.justified, h.entries, h.calls, h.ring⟩
  | process msg =>
      simp only [callsFor, Service.processDNSEvent]
      cases unpack msg with
      | error err =>
          have hsilent : ∀ ip4, ∀ line ∈ [LogLine.dnsParseError err], resolves ip4 line = none := by
            intro ip4 line hline
            rw [List.mem_singleton.mp hline]
            rfl
          refine h.silent hsilent (h.justified.snoc trivial) rfl ?_ (List.Subset.refl _)
          intro d hd
          cases hd
      | ok answer =>
          have hempty : Linked log (fun _ => none) := by
            intro tgt origin hm
            cases hm
          refine h.silent (fun ip4 => cnameLines_silent answer ip4)
            (cnameLines_justified hempty h.justified answer) rfl ?_ (List.Subset.refl _)
          intro d hd
          exact processAnswer_ai hd

/-- A write is announced by a line. -/
theorem Trail.write {d : Destination} {rest : List Destination} (h : Trail o svc log σ)
    (hcalls : σ.calls = d :: rest) (now : UInt64) :
    Trail o svc (log ++ [resolvedLine d])
      { σ with maps := writeDestination o σ.maps d now, calls := rest } := by
  have hall := h.calls
  rw [hcalls] at hall
  refine ⟨h.justified.snoc (hall d List.mem_cons_self), ?_,
    fun d' hd' => hall d' (List.mem_cons_of_mem _ hd'), h.ring_mono⟩
  intro ip4 info hinfo
  rw [Matches, lastResolved_resolved]
  by_cases hip : d.ip4 = ip4
  · subst hip
    rw [← destKey_eq o d.ip4, writeDestination_self] at hinfo
    obtain rfl := Option.some.inj hinfo
    exact ⟨d.hostname, d.ttl, if_pos rfl, destInfo_hostname o d now, destInfo_ttlS d now⟩
  · rw [if_neg hip]
    rw [← destKey_eq o ip4,
      writeDestination_of_ne o _ d now ((destKey_injective o).ne (Ne.symm hip)), destKey_eq] at hinfo
    exact h.entries ip4 info hinfo

/-- An eviction takes an entry away. -/
theorem Trail.evict (h : Trail o svc log σ) (key : List UInt8) :
    Trail o svc log { σ with maps := σ.maps.evict key } := by
  refine ⟨h.justified, ?_, h.calls, h.ring⟩
  intro ip4 info hinfo
  by_cases hkey : ip4.bytes = key
  · rw [hkey, Maps.evict_self] at hinfo
    cases hinfo
  · rw [Maps.evict_of_ne σ.maps hkey] at hinfo
    exact h.entries ip4 info hinfo

theorem bytes_ofBytes {b : List UInt8} (h : b.length = 4) : (Ip4.ofBytes b).bytes = b := by
  match b, h with
  | [b0, b1, b2, b3], _ => rfl

/-- What the reader makes of a reported connect. -/
theorem read_event (call : ConnectCall) (info : Record aiDestInfoT) (slot : Record redirectEventT) :
    ∃ line, readRedirectEvent o (eventRecord o maps call info slot).bytes = some line ∧
      line.originalIp = ipString (Ip4.ofBytes (o.put32 call.ctx.userIp4)) ∧
      line.originalHost = int8SliceToString (info.load .hostname) := by
  rw [readRedirectEvent, ringbufCast_eventRecord]
  exact ⟨_, rfl, rfl, rfl⟩

/-- A connect is reported under the name its address was resolved for. -/
theorem Trail.connect (h : Trail o svc log σ) (call : ConnectCall) :
    Trail o svc log { σ with ring := σ.ring ++
      ((cgroupConnect4 o σ.maps call).submitted.map Record.bytes).toList } := by
  refine ⟨h.justified, h.entries, h.calls, ?_⟩
  intro sample hsample
  rcases List.mem_append.mp hsample with hold | hnew
  · exact h.ring sample hold
  · cases hinfo : σ.maps.aiDestinations (o.put32 call.ctx.userIp4) with
    | none =>
        rw [cgroupConnect4_absent hinfo] at hnew
        exact absurd hnew List.not_mem_nil
    | some info =>
        rw [cgroupConnect4_submitted hinfo] at hnew
        obtain ⟨record, hrecord, rfl⟩ := Option.map_eq_some_iff.mp (Option.mem_toList.mp hnew)
        obtain ⟨slot, _, rfl⟩ := Option.map_eq_some_iff.mp hrecord
        rw [← bytes_ofBytes (o.put32_length call.ctx.userIp4)] at hinfo
        obtain ⟨hostname, ttlS, hlast, hhost, _⟩ := h.entries _ info hinfo
        obtain ⟨line, hread, hip, hname⟩ := @read_event o σ.maps call info slot
        refine ⟨line, hread, hostname, ttlS, ?_, ?_⟩
        · rw [hip]
          exact lastResolved_mem hlast
        · rw [hname, hhost]
          rfl

theorem Trail.step (h : Trail o svc log σ) (hstep : step o svc unpack σ e = some σ') :
    Trail o svc (log ++ logged svc o unpack σ e) σ' := by
  cases e with
  | frame skb slot =>
      obtain rfl := step_frame hstep
      rw [logged, List.append_nil]
      exact ⟨h.justified, h.entries, h.calls, h.ring⟩
  | readDns =>
      obtain ⟨sample, rest, _, _, hring, rfl⟩ := step_readDns hstep
      exact h.readDns hring
  | write now =>
      obtain ⟨d, rest, _, hcalls, rfl⟩ := step_write hstep
      rw [logged, hcalls]
      exact h.write hcalls now
  | evict key =>
      obtain rfl := step_evict hstep
      rw [logged, List.append_nil]
      exact h.evict key
  | connect call =>
      obtain rfl := step_connect hstep
      rw [logged, List.append_nil]
      exact h.connect call
  | readRedirect =>
      obtain ⟨sample, rest, _, hring, rfl⟩ := step_readRedirect hstep
      have hsample : sample ∈ σ.ring := by
        rw [hring]
        exact List.mem_cons_self
      obtain ⟨line, hread, hline⟩ := h.ring sample hsample
      simp only [logged, hring, hread]
      refine h.silent ?_ (h.justified.snoc hline) rfl h.calls ?_
      · intro ip4 line' hline'
        rw [List.mem_singleton.mp hline']
        rfl
      · rw [hring]
        exact List.subset_cons_self _ _

/-- Everything the agent has logged in a run, all but ring read errors. -/
def fullLog (o : ByteOrder) (svc : Service) (unpack : List UInt8 → Except ε (List RR)) (maps : Maps)
    (es : List Event) : List (LogLine ε) :=
  trace (step o svc unpack) (logged svc o unpack) (start maps) es

theorem trail_run (hempty : ∀ key, maps.aiDestinations key = none)
    (hrun : run (step o svc unpack) (start maps) es = some σ) :
    Trail o svc (fullLog o svc unpack maps es) σ := by
  refine run_from (P := fun hist τ => Trail o svc (fullLog o svc unpack maps hist) τ) ?_ ?_ hrun
  · refine ⟨justified_nil _, ?_, ?_, ?_⟩
    · intro ip4 info hinfo
      rw [start, hempty] at hinfo
      cases hinfo
    · intro d hd
      cases hd
    · intro sample hsample
      cases hsample
  · intro hist τ e τ' hhist h hstep
    rw [fullLog, trace_snoc _ hhist]
    exact h.step hstep

/-- Only a write resolves. -/
theorem logged_silent (he : ∀ now, e ≠ .write now) (ip4 : Ip4) :
    ∀ line ∈ logged svc o unpack σ e, resolves ip4 line = none := by
  have hone : ∀ line : LogLine ε, resolves ip4 line = none →
      ∀ line' ∈ [line], resolves ip4 line' = none := by
    intro line hline line' hmem
    rwa [List.mem_singleton.mp hmem]
  cases e with
  | write now => exact absurd rfl (he now)
  | frame skb slot | evict key | connect call =>
      intro line hline
      cases hline
  | readDns =>
      simp only [logged]
      split
      · simp
      · split
        · split
          · exact cnameLines_silent _ ip4
          · exact hone _ rfl
        · simp
  | readRedirect =>
      simp only [logged]
      split
      · simp
      · split
        · exact hone _ rfl
        · exact hone _ rfl

theorem step_maps (hwrite : ∀ now, e ≠ .write now) (hevict : ∀ key, e ≠ .evict key)
    (hstep : step o svc unpack σ e = some σ') : σ'.maps = σ.maps := by
  cases e with
  | write now => exact absurd rfl (hwrite now)
  | evict key => exact absurd rfl (hevict key)
  | frame skb slot => rw [step_frame hstep]
  | connect call => rw [step_connect hstep]
  | readDns =>
      obtain ⟨sample, rest, _, _, _, rfl⟩ := step_readDns hstep
      rw [takeSample]
      split <;> rfl
  | readRedirect =>
      obtain ⟨sample, rest, _, _, rfl⟩ := step_readRedirect hstep
      rfl

/-- What has been resolved stays, if nothing is evicted. -/
theorem resolved_stays (hno : ∀ key, .evict key ∉ es)
    (hrun : run (step o svc unpack) (start maps) es = some σ) (ip4 : Ip4)
    (hres : (lastResolved (fullLog o svc unpack maps es) ip4).isSome) :
    (σ.maps.aiDestinations ip4.bytes).isSome := by
  refine run_from (P := fun hist τ => (∀ key, .evict key ∉ hist) →
    (lastResolved (fullLog o svc unpack maps hist) ip4).isSome →
      (τ.maps.aiDestinations ip4.bytes).isSome) ?_ ?_ hrun hno hres
  · intro _ hres
    cases hres
  · intro hist τ e τ' hhist h hstep hno hres
    have hbefore := h fun key hmem => hno key (List.mem_append_left _ hmem)
    rw [fullLog, trace_snoc _ hhist] at hres
    cases e with
    | write now =>
        obtain ⟨d, rest, _, hcalls, rfl⟩ := step_write hstep
        simp only [logged, hcalls, List.head?_cons, Option.map_some, Option.toList_some,
          lastResolved_resolved] at hres
        by_cases hip : d.ip4 = ip4
        · subst hip
          rw [← destKey_eq o d.ip4, writeDestination_self]
          rfl
        · rw [if_neg hip] at hres
          rw [← destKey_eq o ip4,
            writeDestination_of_ne o _ d now ((destKey_injective o).ne (Ne.symm hip)), destKey_eq]
          exact hbefore hres
    | evict key => exact absurd (List.mem_append_right _ List.mem_cons_self) (hno key)
    | frame skb slot | readDns | connect call | readRedirect =>
        rw [lastResolved_silent (logged_silent (by rintro now ⟨⟩) ip4)] at hres
        have hmaps : τ'.maps = τ.maps := step_maps (by rintro now ⟨⟩) (by rintro key ⟨⟩) hstep
        rw [hmaps]
        exact hbefore hres

theorem cnameLines_redirects (answer : List RR) (m : StringMap) :
    (svc.cnameLines m answer : List (LogLine ε)).filterMap redirectOf = [] :=
  List.filterMap_eq_nil_iff.mpr fun line hline =>
    (link_silent (cnameLines_link answer line hline) ⟨0, 0, 0, 0⟩).2

/-- The lines about redirects are those of the redirect reader. -/
theorem redirects_step (hstep : step o svc unpack σ e = some σ') :
    σ.log ++ (logged svc o unpack σ e).filterMap redirectOf = σ'.log := by
  cases e with
  | frame skb slot =>
      rw [step_frame hstep]
      exact List.append_nil _
  | evict key =>
      rw [step_evict hstep]
      exact List.append_nil _
  | connect call =>
      rw [step_connect hstep]
      exact List.append_nil _
  | write now =>
      obtain ⟨d, rest, _, hcalls, rfl⟩ := step_write hstep
      rw [logged, hcalls]
      exact List.append_nil _
  | readDns =>
      obtain ⟨sample, rest, _, _, hring, rfl⟩ := step_readDns hstep
      simp only [logged, hring, takeSample]
      cases readDnsEvent o sample with
      | skip | panic => exact List.append_nil _
      | process msg =>
          cases hun : unpack msg with
          | error err =>
              simp only [hun]
              exact List.append_nil _
          | ok answer =>
              simp only [hun, cnameLines_redirects]
              exact List.append_nil _
  | readRedirect =>
      obtain ⟨sample, rest, _, hring, rfl⟩ := step_readRedirect hstep
      simp only [logged, hring]
      cases readRedirectEvent o sample with
      | none => rfl
      | some line => rfl

theorem redirects_run (hrun : run (step o svc unpack) (start maps) es = some σ) :
    (fullLog o svc unpack maps es).filterMap redirectOf = σ.log := by
  refine run_from (P := fun hist τ =>
    (fullLog o svc unpack maps hist).filterMap redirectOf = τ.log) rfl ?_ hrun
  intro hist τ e τ' hhist h hstep
  rw [fullLog, trace_snoc _ hhist, List.filterMap_append]
  rw [fullLog] at h
  rw [h, redirects_step hstep]

end Runs

/-- **The log explains itself and the map.** After a successful start, in every run, ring
read errors left aside: the redirects in the log are those of the redirect reader, and
each line is explained by the lines in front of it. Chains start at AI domains and are
extended only where an earlier line has led, addresses are resolved for AI domains, no
event is too small, and a redirect is of an address that was resolved before, under the
name it was resolved for. Every entry of `ai_destinations` has the name and TTL that the
log gives last for its address, and without evictions every address the log resolves has
its entry, as no update fails. -/
theorem log_explains (o : ByteOrder) (ifindex : GoString → Nat) (plan : Plan) (cfg : Config)
    (n x : Node) (m : Manager) {ε : Type} (unpack : List UInt8 → Except ε (List RR))
    (hstart : (newManager o ifindex plan cfg).run n = (.ok m, x)) :
    ∃ ob, x.objs m.objs = some ob ∧
      ∀ es σ, run (step o m.dnsSvc unpack) (start ob.maps) es = some σ →
        (fullLog o m.dnsSvc unpack ob.maps es).filterMap redirectOf = σ.log ∧
        Justified (Explains m.dnsSvc) (fullLog o m.dnsSvc unpack ob.maps es) ∧
        (∀ ip4 info, σ.maps.aiDestinations ip4.bytes = some info →
          Matches o (fullLog o m.dnsSvc unpack ob.maps es) ip4 info) ∧
        ((∀ key, .evict key ∉ es) → ∀ ip4, (σ.maps.aiDestinations ip4.bytes).isSome ↔
          (lastResolved (fullLog o m.dnsSvc unpack ob.maps es) ip4).isSome) := by
  obtain ⟨ip, _, hob⟩ := Interception.serving_objs hstart
  refine ⟨_, hob, ?_⟩
  intro es σ hrun
  have htrail := trail_run (Interception.servingObjects_empty ip cfg.proxyPort) hrun
  refine ⟨redirects_run hrun, htrail.justified, htrail.entries, ?_⟩
  intro hno ip4
  constructor
  · intro hknown
    obtain ⟨info, hinfo⟩ := Option.isSome_iff_exists.mp hknown
    obtain ⟨hostname, ttlS, hlast, _⟩ := htrail.entries ip4 info hinfo
    rw [hlast]
    rfl
  · exact resolved_stays hno hrun ip4

/-- A first start and the answer for `api.openai.com`: the log has resolved its address,
as the map has it. -/
theorem log_explains_openai :
    ∃ m x ob σ, (newManager .little (fun _ => 2) (fun _ => .ok) agentConfig).run Node.boot =
        (.ok m, x) ∧ x.objs m.objs = some ob ∧
      run (step .little m.dnsSvc Capture.openaiUnpack) (start ob.maps) Capture.openaiRun = some σ ∧
      (lastResolved (fullLog .little m.dnsSvc Capture.openaiUnpack ob.maps Capture.openaiRun)
        openaiDestination.ip4).isSome := by
  obtain ⟨ob, hob, h⟩ := log_explains _ _ _ _ _ _ _ Capture.openaiUnpack Interception.agent_starts
  have hrun := Capture.openaiRun_ends ob.maps
  refine ⟨_, _, ob, _, Interception.agent_starts, hob, hrun, ?_⟩
  obtain ⟨_, _, _, hiff⟩ := h Capture.openaiRun _ hrun
  refine (hiff (by simp [Capture.openaiRun]) openaiDestination.ip4).mp ?_
  have hknown := writeDestination_self .little ob.maps openaiDestination 1
  rw [destKey_eq] at hknown
  rw [hknown]
  rfl

end AiInterceptor.Theorems.LogTrail
