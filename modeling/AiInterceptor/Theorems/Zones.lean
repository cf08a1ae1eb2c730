import AiInterceptor.Agent.Process
import AiInterceptor.Theorems.DomainList

/-!
# Interception in terms of DNS

Put together, the hooks, the reader, the service and the configuration come to a
statement about names: a connect is redirected exactly when an answer has been observed
that gives its address to a name in one of the configured zones, or to a name that one
in a zone is an alias of. Without a configured list the zones are the default ones
(`redirect_by_zones`).
-/

namespace AiInterceptor.Theorems.Zones

open Lib Bpf Go Agent Destinations Capture EndToEnd DomainList FrameSafety

/-- The name is the zone itself or stands below it. -/
def InZone (zone name : GoString) : Prop :=
  name = zone ∨ ∃ labels, name = labels ++ (ascii "." ++ zone)

def InZones (zones : List GoString) (name : GoString) : Prop := ∃ zone ∈ zones, InZone zone name

/-- CNAME records of an answer, each owned by the target of one before it, lead from
`origin` to `last`. -/
structure Alias (answer : List RR) (origin last : GoString) (hops : List Hop) : Prop where
  nonempty : hops ≠ []
  records : ∀ h ∈ hops, cnameAt answer h.pos = some (h.owner, h.target)
  increasing : (hops.map Hop.pos).Pairwise (· < ·)
  linked : hops.IsChain fun h h' => h.target = h'.owner
  starts : hops.head?.map Hop.owner = some origin
  ends : hops.getLast?.map Hop.target = some last

/-- An answer gives an address to a name in a zone, directly or through aliases. -/
def Resolves (zones : List GoString) (answer : List RR) (ip4 : Ip4) : Prop :=
  ∃ hdr addr, .a hdr addr ∈ answer ∧ to4 addr = some ip4 ∧
    (InZones zones (trimDot hdr.name) ∨
      ∃ origin hops, InZones zones origin ∧ Alias answer origin (trimDot hdr.name) hops)

section Answer

variable {zones : List GoString} {answer : List RR}

theorem isAIDomain_iff {name : GoString} :
    (Service.mk zones).isAIDomain name = true ↔ InZones zones name := by
  unfold Service.isAIDomain
  rw [List.any_eq_true]
  constructor
  · rintro ⟨zone, hzone, hmatch⟩
    rcases (Bool.or_eq_true _ _).mp hmatch with heq | hsuffix
    · exact ⟨zone, hzone, .inl (eq_of_beq heq)⟩
    · obtain ⟨labels, hlabels⟩ := of_decide_eq_true hsuffix
      exact ⟨zone, hzone, .inr ⟨labels, hlabels.symm⟩⟩
  · rintro ⟨zone, hzone, rfl | ⟨labels, rfl⟩⟩
    · exact ⟨name, hzone, (Bool.or_eq_true _ _).mpr (.inl (beq_self_eq_true name))⟩
    · refine ⟨zone, hzone, (Bool.or_eq_true _ _).mpr (.inr ?_)⟩
      exact decide_eq_true (List.suffix_append labels _)

theorem chain_iff {hops : List Hop} {origin last : GoString} :
    CnameChain ⟨zones⟩ answer hops origin last ↔
      InZones zones origin ∧ Alias answer origin last hops := by
  constructor
  · intro h
    exact ⟨isAIDomain_iff.mp h.ai,
      ⟨h.nonempty, h.records, h.increasing, h.linked, h.starts, h.ends⟩⟩
  · rintro ⟨hzone, h⟩
    exact ⟨h.nonempty, h.records, h.increasing, h.linked, h.starts, isAIDomain_iff.mpr hzone,
      h.ends⟩

theorem serves_iff {name : GoString} :
    Serves zones answer name ↔
      InZones zones name ∨ ∃ origin hops, InZones zones origin ∧ Alias answer origin name hops := by
  unfold Serves
  rw [isAIDomain_iff]
  refine or_congr_right ?_
  constructor
  · rintro ⟨hops, origin, hchain⟩
    exact ⟨origin, hops, chain_iff.mp hchain⟩
  · rintro ⟨origin, hops, h⟩
    exact ⟨hops, origin, chain_iff.mpr h⟩

theorem writes_iff_resolves (hne : [] ∉ zones) {ip4 : Ip4} :
    DataPlane.Writes ⟨zones⟩ answer ip4.bytes ↔ Resolves zones answer ip4 := by
  rw [writes_iff hne]
  constructor
  · rintro ⟨hdr, addr, ip4', hrr, hip, hkey, hserves⟩
    obtain rfl := Ip4.bytes_injective hkey
    exact ⟨hdr, addr, hrr, hip, serves_iff.mp hserves⟩
  · rintro ⟨hdr, addr, hrr, hip, hname⟩
    exact ⟨hdr, addr, ip4, hrr, hip, rfl, serves_iff.mpr hname⟩

end Answer

/-- The zones of an agent: those of its configuration, or the default ones. -/
def zonesOf (cfg : Config) : List GoString := (withDefaultDomains cfg).aiDomains

theorem zonesOf_named {cfg : Config} (h : [] ∉ cfg.aiDomains) : [] ∉ zonesOf cfg := by
  unfold zonesOf withDefaultDomains
  split
  · exact (by decide : [] ∉ defaultAIDomains)
  · exact h

section Outcome

variable {ε : Type} {unpack : List UInt8 → Except ε (List RR)}

/-- An observed frame that found a slot in the ring held a response that gives the
address to a name in a zone, or to an alias of one. -/
def Resolved (unpack : List UInt8 → Except ε (List RR)) (zones : List GoString)
    (es : List Pipeline.Event) (ip4 : Ip4) : Prop :=
  ∃ skb slot p n answer, .frame skb (some slot) ∈ es ∧ Accepted skb.bytes p n ∧
    unpack (readAt skb.bytes p n) = .ok answer ∧ Resolves zones answer ip4

theorem announced_iff_resolved {zones : List GoString} (hne : [] ∉ zones)
    {es : List Pipeline.Event} {ip4 : Ip4} :
    Announced ⟨zones⟩ unpack es ip4.bytes ↔ Resolved unpack zones es ip4 := by
  constructor
  · rintro ⟨skb, slot, p, n, answer, hframe, hacc, hun, hw⟩
    exact ⟨skb, slot, p, n, answer, hframe, hacc, hun, (writes_iff_resolves hne).mp hw⟩
  · rintro ⟨skb, slot, p, n, answer, hframe, hacc, hun, hres⟩
    exact ⟨skb, slot, p, n, answer, hframe, hacc, hun, (writes_iff_resolves hne).mpr hres⟩

/-- What a connect comes to, by the frames so far. -/
theorem zones_outcome {o : ByteOrder} {zones : List GoString} (hne : [] ∉ zones) {maps : Maps}
    {ip : Ip4} {port : UInt16} (hproxy : maps.proxyConfig = proxyValue o ip port)
    (hempty : ∀ key, maps.aiDestinations key = none) {es : List Pipeline.Event}
    {σ : Pipeline.State}
    (hrun : run (Pipeline.step o ⟨zones⟩ unpack) (Pipeline.start maps) es = some σ)
    (hno : ∀ key, .evict key ∉ es) (hidle : Idle σ) {ip4 : Ip4} {call : ConnectCall}
    (hcall : o.put32 call.ctx.userIp4 = ip4.bytes) :
    Interception.ConnectOutcome o σ.maps call ip port (Resolved unpack zones es ip4) := by
  refine Interception.connect_outcome ((pipeline_proxyConfig hrun).trans hproxy) ?_
  rw [known_iff_arrived hempty hno hidle hrun, ← announced_iff, hcall, announced_iff_resolved hne]

/-- What a successful start of the agent leaves for its run. -/
theorem agent_starts_with {o : ByteOrder} {ifindex : GoString → Nat} {plan : Plan} {cfg : Config}
    {n x : Node} {m : Manager}
    (hstart : (newManager o ifindex plan (withDefaultDomains cfg)).run n = (.ok m, x)) :
    m.dnsSvc = ⟨zonesOf cfg⟩ ∧ ∃ ip ob, parseIP4 cfg.proxyIP = some ip ∧
      x.objs m.objs = some ob ∧ ob.maps.proxyConfig = proxyValue o ip cfg.proxyPort ∧
      ∀ key, ob.maps.aiDestinations key = none := by
  have hproxy : (withDefaultDomains cfg).proxyIP = cfg.proxyIP ∧
      (withDefaultDomains cfg).proxyPort = cfg.proxyPort := by
    unfold withDefaultDomains
    split
    · exact ⟨rfl, rfl⟩
    · exact ⟨rfl, rfl⟩
  obtain ⟨ip, hip, hob⟩ := Interception.serving_objs hstart
  rw [hproxy.1] at hip
  rw [hproxy.2] at hob
  refine ⟨?_, ip, _, hip, hob, rfl, fun _ => rfl⟩
  obtain ⟨_, _, rfl, _⟩ := newManager_succeeded hstart
  rfl

end Outcome

/-- **A connect is redirected by the names its address was given to.** Take any
configuration without an empty domain, with the default domains filled in, and a
successful start: in every run without evictions at whose end the DNS reader is idle, a
connect to an address goes to the proxy exactly when an observed frame that found a slot
in the ring held a response whose answer gives that address to a name in a zone of the
agent, or to an alias of one; every other connect is left alone. -/
theorem redirect_by_zones (o : ByteOrder) (ifindex : GoString → Nat) (plan : Plan) (cfg : Config)
    (hnamed : [] ∉ cfg.aiDomains) (n x : Node) (m : Manager) {ε : Type}
    (unpack : List UInt8 → Except ε (List RR))
    (hstart : (newManager o ifindex plan (withDefaultDomains cfg)).run n = (.ok m, x)) :
    ∃ ip ob, parseIP4 cfg.proxyIP = some ip ∧ x.objs m.objs = some ob ∧
      ∀ es σ, run (Pipeline.step o m.dnsSvc unpack) (Pipeline.start ob.maps) es = some σ →
        (∀ key, .evict key ∉ es) → Idle σ →
        ∀ (ip4 : Ip4) call, o.put32 call.ctx.userIp4 = ip4.bytes →
          Interception.ConnectOutcome o σ.maps call ip cfg.proxyPort
            (∃ skb slot p n answer, .frame skb (some slot) ∈ es ∧ Accepted skb.bytes p n ∧
              unpack (readAt skb.bytes p n) = .ok answer ∧ Resolves (zonesOf cfg) answer ip4) := by
  obtain ⟨hsvc, ip, ob, hip, hob, hproxy, hempty⟩ := agent_starts_with hstart
  refine ⟨ip, ob, hip, hob, ?_⟩
  intro es σ hrun hno hidle ip4 call hcall
  rw [hsvc] at hrun
  exact zones_outcome (zonesOf_named hnamed) hproxy hempty hrun hno hidle hcall

/-- A configuration without domains. -/
def unconfigured : Config := { agentConfig with aiDomains := [] }

theorem unconfigured_ip : parseIP4 unconfigured.proxyIP = some ⟨10, 100, 0, 50⟩ := by decide

theorem unconfigured_starts :
    (newManager .little (fun _ => 2) (fun _ => .ok) (withDefaultDomains unconfigured)).run
      Node.boot = (.ok (newManagerOf (fun _ => 2) (withDefaultDomains unconfigured) Node.boot),
        afterAttach .little (fun _ => 2) (fun _ => .ok) (withDefaultDomains unconfigured)
          ⟨10, 100, 0, 50⟩ Node.boot) :=
  newManager_ok ⟨rfl, by decide, rfl, rfl, .inl rfl, rfl, rfl⟩ unconfigured_ip rfl

theorem unconfigured_run (maps : Maps) :
    run (Pipeline.step .little ⟨defaultAIDomains⟩ openaiUnpack) (Pipeline.start maps) openaiRun =
      some ⟨writeDestination .little maps openaiDestination 1, [], [], [], [], false⟩ := by
  have hcalls : (Service.mk defaultAIDomains).processAnswer openaiAnswer = [openaiDestination] := by
    decide
  exact answer_run openaiFrame_accepted rfl hcalls maps (Record.zero dnsEventT) 1

theorem openai_resolved :
    Resolved openaiUnpack defaultAIDomains openaiRun openaiDestination.ip4 := by
  refine ⟨openaiFrame, Record.zero dnsEventT, 42, 42, openaiAnswer, List.mem_cons_self,
    openaiFrame_accepted, rfl, ⟨ascii "api.openai.com.", 300⟩, [104, 18, 6, 192],
    List.mem_cons_self, rfl, .inl ?_⟩
  exact ⟨ascii "openai.com", List.mem_cons_self, .inr ⟨ascii "api", by decide⟩⟩

/-- Its first start, the answer for `api.openai.com`, and a connect to the address. -/
theorem redirect_by_zones_openai :
    ∃ m x ob σ,
      (newManager .little (fun _ => 2) (fun _ => .ok) (withDefaultDomains unconfigured)).run
        Node.boot = (.ok m, x) ∧ x.objs m.objs = some ob ∧
      run (Pipeline.step .little m.dnsSvc openaiUnpack) (Pipeline.start ob.maps) openaiRun =
        some σ ∧
      Holds .little (cgroupConnect4 .little σ.maps
        (curlConnect .little openaiDestination.ip4 1 6)).ctx ⟨10, 100, 0, 50⟩ 8443 := by
  obtain ⟨ip, ob, hip, hob, h⟩ := redirect_by_zones _ _ _ unconfigured (by decide) _ _ _
    openaiUnpack unconfigured_starts
  obtain rfl := Option.some.inj (hip.symm.trans unconfigured_ip)
  have hrun := unconfigured_run ob.maps
  refine ⟨_, _, ob, _, unconfigured_starts, hob, hrun, ?_⟩
  have hout := h openaiRun _ hrun (by simp [openaiRun]) ⟨rfl, rfl⟩ openaiDestination.ip4
    (curlConnect .little openaiDestination.ip4 1 6) (destKey_eq .little openaiDestination.ip4)
  exact hout.redirected openai_resolved

end AiInterceptor.Theorems.Zones
