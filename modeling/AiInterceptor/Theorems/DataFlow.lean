import AiInterceptor.Network.Deployment
import AiInterceptor.Theorems.DialTarget
import AiInterceptor.Theorems.HttpRouting
import AiInterceptor.Theorems.Zones

/-!
# The data flow of the README

From the DNS response on the node to the dial of the proxy. A TCP connect to an address
that an observed response has given to a name in a zone becomes a session of the proxy,
and no other connect does. The proxy knows the process's destination only by the bytes
the process sends: it dials the host of its ClientHello or of its request, at the port
of the protocol, so that the connection is carried on to where it was made for exactly
when that was its port (`data_flow`).
-/

namespace AiInterceptor.Theorems.DataFlow

open Lib Bpf Go Agent Proxy Network Network.Deployment EndToEnd Interception Zones Sessions
  HostHeader RequestHead ClientHello TlsRouting HttpRouting

/-! ## Ports as text -/

def portText (port : UInt16) : GoString := ascii (toString port.toNat)

/-- A host and a port, as they are dialled. -/
def authority (host : GoString) (port : UInt16) : GoString := joinHostPort host (portText port)

theorem char_of_digit {c : Char} (h : c.isDigit = true) :
    Char.ofNat (UInt8.ofNat c.toNat).toNat = c := by
  have hle : c.toNat ≤ 57 := (Char.isDigit_iff_toNat.mp h).2
  rw [UInt8.toNat_ofNat_of_lt' (show c.toNat < 256 by omega), Char.ofNat_toNat]

/-- The digits can be read off the text. -/
theorem portText_digits (port : UInt16) :
    (portText port).map (fun b => Char.ofNat b.toNat) = Nat.toDigits 10 port.toNat := by
  rw [portText, ascii, List.map_map, Nat.toString_eq_repr, Nat.toList_repr]
  have hdigits : ∀ c ∈ Nat.toDigits 10 port.toNat,
      ((fun b : UInt8 => Char.ofNat b.toNat) ∘ fun c : Char => UInt8.ofNat c.toNat) c = id c :=
    fun c hc => char_of_digit (Nat.isDigit_of_mem_toDigits (by decide) (by decide) hc)
  rw [List.map_congr_left hdigits, List.map_id]

theorem portText_injective {port port' : UInt16} (h : portText port = portText port') :
    port = port' := by
  have hdigits : Nat.toDigits 10 port.toNat = Nat.toDigits 10 port'.toNat := by
    rw [← portText_digits, h, portText_digits]
  have hnat := congrArg (fun l => Nat.ofDigitChars 10 l 0) hdigits
  simp only [Nat.ofDigitChars_ten_toDigits] at hnat
  exact UInt16.toNat_inj.mp hnat

/-- The target of a host name, at the port of the branch. -/
theorem dialTarget_authority {host upstreamPort : GoString} (hcolon : colon ∉ host) (port : UInt16)
    (hport : upstreamPort = portText port) :
    dialTarget host upstreamPort = authority host port := by
  rw [DialTarget.dialTarget_join (splitHostPort_of_noColon hcolon), hport]
  rfl

theorem authority_iff {host : GoString} (hcolon : colon ∉ host) {port port' : UInt16} :
    authority host port = authority host port' ↔ port = port' := by
  constructor
  · intro h
    rw [authority, authority, joinHostPort_plain _ hcolon, joinHostPort_plain _ hcolon] at h
    exact portText_injective (List.cons.inj (List.append_cancel_left h)).2
  · rintro rfl
    rfl

/-! ## Where connects land -/

section Connect

variable {o : ByteOrder} {svc : Service} {ε : Type} {unpack : List UInt8 → Except ε (List RR)}
  {lowerRune : Nat → Nat} {ip : Ip4} {port : UInt16} {δ : Deployment} {call : ConnectCall}
  {known : Prop}

theorem accept_alive {proxy : List Session} (halive : ∀ s ∈ proxy, s.phase ≠ .panicked) :
    accept lowerRune proxy = proxy ++ [Session.start] := by
  have hnot : ¬ proxy.any Session.fatal = true := by
    rw [List.any_eq_true]
    rintro ⟨s, hs, hfatal⟩
    exact halive s hs (of_decide_eq_true hfatal)
  rw [accept, serverStep, poolStep, if_neg hnot]
  rfl

/-- A connect becomes a session exactly when it is redirected. -/
theorem connect_lands (hout : ConnectOutcome o δ.agent.maps call ip port known)
    (halive : ∀ s ∈ δ.proxy, s.phase ≠ .panicked) (htcp : IsTcp call.ctx)
    (helse : ¬ Holds o call.ctx ip port) :
    ∃ δ', step o svc unpack lowerRune ip port δ (.node (.connect call)) = some δ' ∧
      (known → δ'.proxy = δ.proxy ++ [Session.start]) ∧ (¬ known → δ'.proxy = δ.proxy) := by
  refine ⟨_, rfl, ?_, ?_⟩
  · intro hknown
    have hlands : lands o ip port δ.agent.maps (.connect call) = true :=
      decide_eq_true ⟨htcp, hout.redirected hknown⟩
    simp only [hlands, if_true]
    exact accept_alive halive
  · intro hknown
    obtain ⟨hip, hport⟩ := hout.unchanged hknown
    have hlands : ¬ lands o ip port δ.agent.maps (.connect call) = true := by
      intro h
      obtain ⟨_, haddr, hnarrow, hp⟩ := of_decide_eq_true h
      rw [hip] at haddr
      rw [hport] at hnarrow hp
      exact helse ⟨haddr, hnarrow, hp⟩
    simp only [if_neg hlands]

end Connect

/-! ## What becomes of them -/

/-- The session of a process that had connected to `port`. The two streams arrive in
order and without gaps. The host is the one the process names, and the port is that of
the protocol: the one the process had connected to is not known to the proxy. -/
structure CarriedOn (s : Session) (port : UInt16) : Prop where
  upstream : s.relay.up.delivered <+: s.relay.up.sent
  process : s.relay.down.delivered <+: s.relay.down.sent
  hello : ∀ (r : HelloRecord) host, r.hello.Announces host → host ≠ [] → colon ∉ host →
    r.bytes <+: s.relay.up.sent →
    s.phase ≠ .closed (.noHost none) ∧ ∀ d, dialled s.phase = some d →
      d.peeked = r.bytes ∧ d.target = authority host 443 ∧
        (d.target = authority host port ↔ port = 443)
  request : ∀ h : Head, Plain h.bytes → h.host.lead.head? = some 0x20 → h.host.value ≠ [] →
    colon ∉ h.host.value → h.bytes <+: s.relay.up.sent →
    s.phase ≠ .panicked ∧ ∀ d, dialled s.phase = some d → h.bytes <+: d.peeked →
      d.target = authority h.host.value 80 ∧
        (d.target = authority h.host.value port ↔ port = 80)

theorem carriedOn {lowerRune : Nat → Nat} (hlower : AsciiOnly lowerRune needle)
    {es : List (PoolEvent Session.Event)} {pool : List Session}
    (hrun : run (serverStep lowerRune) [] es = some pool) {i : Nat} {s : Session}
    (hi : pool[i]? = some s) (port : UInt16) : CarriedOn s port := by
  have hintact := session_intact hrun hi
  refine ⟨hintact.upstream, delivered_first hintact.down, ?_, ?_⟩
  · intro r host ha hne hcolon hsent
    obtain ⟨_, hkept, hdial⟩ := hello_dial hrun hi ha hne hsent
    refine ⟨hkept, ?_⟩
    intro d hd
    obtain rfl := hdial d hd
    have htarget : dialTarget host httpsPort = authority host 443 :=
      dialTarget_authority hcolon 443 (by decide)
    refine ⟨rfl, htarget, ?_⟩
    rw [htarget, authority_iff hcolon]
    exact eq_comm
  · intro h hfirst hlead hvalue hcolon hsent
    have hspace := (Field.content_head hvalue).mpr hlead
    have ho := ofRequest_run hrun hi hsent
    refine ⟨ho.calm hlower hspace, ?_⟩
    intro d hd hwhole
    obtain ⟨hpeeked, ⟨host, hparse, htarget⟩, _⟩ := ho.asks hfirst hd
    rw [hpeeked] at hwhole
    rw [parse_whole hlower hspace hwhole, Option.some.injEq] at hparse
    subst hparse
    rw [dialTarget_authority hcolon 80 (by decide)] at htarget
    refine ⟨htarget, ?_⟩
    rw [htarget, authority_iff hcolon]
    exact eq_comm

/-- **From the DNS response to the dial.** Take any configuration without an empty
domain and a successful start, with the proxy at the configured address, any run of the
two without evictions, up to a state where the DNS reader is idle and the proxy is
alive, and a TCP connect to an address other than the proxy's. If an observed response
has given the address to a name in a zone, the connect becomes a session of the proxy,
otherwise none. However the run goes on from there, the process and its upstream have
received prefixes of what the other has sent, and the session is dialled to the host
that the process names in its ClientHello or its request; to the port the process had
connected to exactly when that was 443, or 80 for a request. -/
theorem data_flow (o : ByteOrder) (ifindex : GoString → Nat) (plan : Plan) (cfg : Config)
    (hnamed : [] ∉ cfg.aiDomains) (n x : Node) (m : Manager) {ε : Type}
    (unpack : List UInt8 → Except ε (List RR)) (lowerRune : Nat → Nat)
    (hlower : AsciiOnly lowerRune needle)
    (hstart : (newManager o ifindex plan (withDefaultDomains cfg)).run n = (.ok m, x)) :
    ∃ ip ob, parseIP4 cfg.proxyIP = some ip ∧ x.objs m.objs = some ob ∧
      ∀ es δ, run (step o m.dnsSvc unpack lowerRune ip cfg.proxyPort) (start ob.maps) es = some δ →
        (∀ key, .node (.evict key) ∉ es) → Idle δ.agent →
        (∀ s ∈ δ.proxy, s.phase ≠ .panicked) →
        ∀ (ip4 : Ip4) call, o.put32 call.ctx.userIp4 = ip4.bytes → IsTcp call.ctx →
          ¬ Holds o call.ctx ip cfg.proxyPort →
          ∃ δ', step o m.dnsSvc unpack lowerRune ip cfg.proxyPort δ (.node (.connect call)) =
              some δ' ∧
            (¬ Resolved unpack (zonesOf cfg) (es.filterMap Event.node?) ip4 →
              δ'.proxy = δ.proxy) ∧
            (Resolved unpack (zonesOf cfg) (es.filterMap Event.node?) ip4 →
              δ'.proxy = δ.proxy ++ [Session.start] ∧
              ∀ es' δ'', run (step o m.dnsSvc unpack lowerRune ip cfg.proxyPort) δ' es' = some δ'' →
                ∃ s, δ''.proxy[δ.proxy.length]? = some s ∧
                  CarriedOn s (ntohs o call.ctx.userPort.toUInt16)) := by
  obtain ⟨hsvc, ip, ob, hip, hob, hproxy, hempty⟩ := agent_starts_with hstart
  refine ⟨ip, ob, hip, hob, ?_⟩
  intro es δ hrun hno hidle halive ip4 call hcall htcp helse
  have hagent := agent_run hrun
  rw [hsvc] at hagent
  have hout := zones_outcome (zonesOf_named hnamed) hproxy hempty hagent
    (fun key hmem => hno key (mem_node_iff.mp hmem)) hidle hcall
  obtain ⟨δ', hstep, hlands, hpasses⟩ := connect_lands hout halive htcp helse
  refine ⟨δ', hstep, hpasses, ?_⟩
  intro hresolved
  have hnew := hlands hresolved
  refine ⟨hnew, ?_⟩
  intro es' δ'' hlater
  -- the sessions are those of a run of the proxy alone, and none of them goes away
  obtain ⟨pes, hpes⟩ := proxy_run (run_append.mpr ⟨δ, hrun, run_cons.mpr ⟨δ', hstep, hlater⟩⟩)
  obtain ⟨later, hgrown⟩ := proxy_run hlater
  have hlength := pool_grows hgrown
  rw [hnew, List.length_append, List.length_singleton] at hlength
  have hi := List.getElem?_eq_getElem (show δ.proxy.length < δ''.proxy.length by omega)
  exact ⟨_, hi, carriedOn hlower hpes hi _⟩

/-! ## A sample -/

/-- Events of the node other than connects do not reach the proxy. -/
theorem node_run {o : ByteOrder} {svc : Service} {ε : Type}
    {unpack : List UInt8 → Except ε (List RR)} {lowerRune : Nat → Nat} {ip : Ip4} {port : UInt16}
    {es : List Pipeline.Event} {σ σ' : Pipeline.State} {proxy : List Session}
    (hno : ∀ call, .connect call ∉ es) (hrun : run (Pipeline.step o svc unpack) σ es = some σ') :
    run (step o svc unpack lowerRune ip port) ⟨σ, proxy⟩ (es.map .node) = some ⟨σ', proxy⟩ := by
  induction es generalizing σ with
  | nil =>
      rw [run_nil, Option.some.injEq] at hrun
      rw [hrun]
      rfl
  | cons e rest ih =>
      obtain ⟨ρ, hstep, hrest⟩ := run_cons.mp hrun
      have hlands : lands o ip port σ.maps e = false := by
        cases e with
        | connect call => exact absurd List.mem_cons_self (hno call)
        | frame skb slot | readDns | write now | evict key | readRedirect => rfl
      refine run_cons.mpr ⟨⟨ρ, proxy⟩, ?_, ih (fun call hc => hno call (List.mem_cons_of_mem _ hc))
        hrest⟩
      simp only [step, hstep, Option.map_some, hlands]
      rfl

/-- The first start of an unconfigured agent, the answer for `api.openai.com`, and a
connect to the address: the proxy has a session. -/
theorem data_flow_openai :
    ∃ m x ob δ δ',
      (newManager .little (fun _ => 2) (fun _ => .ok) (withDefaultDomains unconfigured)).run
        Node.boot = (.ok m, x) ∧ x.objs m.objs = some ob ∧
      run (step .little m.dnsSvc Capture.openaiUnpack latinLower ⟨10, 100, 0, 50⟩ 8443)
        (start ob.maps) (Capture.openaiRun.map .node) = some δ ∧
      step .little m.dnsSvc Capture.openaiUnpack latinLower ⟨10, 100, 0, 50⟩ 8443 δ
        (.node (.connect (curlConnect .little openaiDestination.ip4 1 6))) = some δ' ∧
      δ'.proxy = [Session.start] := by
  obtain ⟨ip, ob, hip, hob, h⟩ := data_flow _ _ _ unconfigured (by decide) _ _ _
    Capture.openaiUnpack latinLower latinLower_asciiOnly unconfigured_starts
  obtain rfl := Option.some.inj (hip.symm.trans unconfigured_ip)
  have hrun := @node_run _ _ _ _ latinLower ⟨10, 100, 0, 50⟩ 8443 _ _ _ []
    (by simp [Capture.openaiRun]) (unconfigured_run ob.maps)
  have helse : ¬ Holds .little (curlConnect .little openaiDestination.ip4 1 6).ctx
      ⟨10, 100, 0, 50⟩ 8443 := by decide
  obtain ⟨δ', hstep, _, hlands⟩ := h _ _ hrun (by simp [Capture.openaiRun]) ⟨rfl, rfl⟩
    (by simp) openaiDestination.ip4 (curlConnect .little openaiDestination.ip4 1 6)
    (destKey_eq .little openaiDestination.ip4) ⟨rfl, rfl⟩ helse
  exact ⟨_, _, ob, _, δ', unconfigured_starts, hob, hrun, hstep, (hlands openai_resolved).1⟩

end AiInterceptor.Theorems.DataFlow
