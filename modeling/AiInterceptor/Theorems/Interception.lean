import AiInterceptor.Logic.DataPlane

/-!
# Which connects are redirected

From the state a successful `NewManager` leaves, over every interleaving of DNS
messages, writes, evictions and connects: a connect is redirected to the
configured proxy exactly when its address is a live destination, and what was
written depends on the messages only as a set (`whole_run_interception`). The
hook never looks at the socket, so sockets other than TCP ones are left alone
exactly as far as their addresses are unknown (`non_tcp_untouched_iff`).
-/

namespace AiInterceptor.Theorems.Interception

open Lib Bpf Go Agent Agent.DataPlane

variable {o : ByteOrder} {ifindex : GoString → Nat} {plan : Plan} {cfg : Config} {n x : Node}
  {m : Manager}

/-- The run of events `es` of the manager `m`, from the maps that `NewManager` left
on the node `x`, ends in `σ`. -/
def ServesTo (o : ByteOrder) (x : Node) (m : Manager) (es : List Event) (σ : State) : Prop :=
  ∃ ob, x.objs m.objs = some ob ∧ run (step o m.dnsSvc) (start ob.maps) es = some σ

/-- The objects `NewManager` leaves: no destination, the proxy entry written. -/
theorem serving_objs (hstart : (newManager o ifindex plan cfg).run n = (.ok m, x)) :
    ∃ ip, parseIP4 cfg.proxyIP = some ip ∧
      x.objs m.objs = some (servingObjects o ip cfg.proxyPort) := by
  obtain ⟨ip, hip, rfl, rfl⟩ := newManager_succeeded hstart
  exact ⟨ip, hip, afterAttach_objs ip⟩

theorem servingObjects_empty (ip : Ip4) (port : UInt16) (key : List UInt8) :
    (servingObjects o ip port).maps.aiDestinations key = none := rfl

/-- The two outcomes of one call. -/
structure ConnectOutcome (o : ByteOrder) (maps : Maps) (call : ConnectCall) (ip : Ip4)
    (port : UInt16) (known : Prop) : Prop where
  ret : (cgroupConnect4 o maps call).ret = 1
  redirected : known → Holds o (cgroupConnect4 o maps call).ctx ip port
  unchanged : ¬ known → (cgroupConnect4 o maps call).ctx.userIp4 = call.ctx.userIp4 ∧
    (cgroupConnect4 o maps call).ctx.userPort = call.ctx.userPort

theorem connect_outcome {maps : Maps} {ip : Ip4} {port : UInt16} {known : Prop}
    {call : ConnectCall} (hproxy : maps.proxyConfig = proxyValue o ip port)
    (hknown : (maps.aiDestinations (o.put32 call.ctx.userIp4)).isSome ↔ known) :
    ConnectOutcome o maps call ip port known := by
  refine ⟨cgroupConnect4_ret o maps call, ?_, ?_⟩
  · intro hk
    obtain ⟨info, hinfo⟩ := Option.isSome_iff_exists.mp (hknown.mpr hk)
    exact redirected_holds hproxy hinfo
  · intro hk
    have hnone : maps.aiDestinations (o.put32 call.ctx.userIp4) = none := by
      rw [← Option.not_isSome_iff_eq_none]
      exact fun hs => hk (hknown.mp hs)
    rw [cgroupConnect4_absent hnone]
    exact ⟨rfl, rfl⟩

/-- The context a connect leaves with depends on the maps only through the proxy
entry and whether its address is known. -/
theorem connect_ctx_congr {maps maps' : Maps} (call : ConnectCall)
    (hproxy : maps.proxyConfig = maps'.proxyConfig)
    (hknown : (maps.aiDestinations (o.put32 call.ctx.userIp4)).isSome ↔
      (maps'.aiDestinations (o.put32 call.ctx.userIp4)).isSome) :
    (cgroupConnect4 o maps call).ctx = (cgroupConnect4 o maps' call).ctx := by
  cases h : maps.aiDestinations (o.put32 call.ctx.userIp4) with
  | none =>
      have h' : maps'.aiDestinations (o.put32 call.ctx.userIp4) = none := by
        rw [← Option.not_isSome_iff_eq_none, ← hknown, h]
        simp
      rw [cgroupConnect4_absent h, cgroupConnect4_absent h']
  | some info =>
      rw [h] at hknown
      obtain ⟨info', h'⟩ := Option.isSome_iff_exists.mp (hknown.mp rfl)
      rw [cgroupConnect4_present h, cgroupConnect4_present h', hproxy]

/-- Two runs that read the same messages, however often and in whatever order. -/
def SameMessages (es es' : List Event) : Prop :=
  ∀ answer, .dnsMessage answer ∈ es ↔ .dnsMessage answer ∈ es'

/-- A run without evictions whose messages have all been processed. -/
def Settled (es : List Event) (σ : State) : Prop := (∀ key, .evict key ∉ es) ∧ Drained σ

/-- Whole-run interception, from any successful start on any node. -/
theorem whole_run_interception (o : ByteOrder) (ifindex : GoString → Nat) (plan : Plan)
    (cfg : Config) (n x : Node) (m : Manager)
    (hstart : (newManager o ifindex plan cfg).run n = (.ok m, x)) :
    ∃ ip, parseIP4 cfg.proxyIP = some ip ∧
      (∃ σ, ServesTo o x m [] σ) ∧
      ∀ es σ, ServesTo o x m es σ →
        (∀ call, ConnectOutcome o σ.maps call ip cfg.proxyPort
          (Intercepted es (o.put32 call.ctx.userIp4))) ∧
        (Settled es σ → ∀ key, (σ.maps.aiDestinations key).isSome ↔
          ∃ answer, .dnsMessage answer ∈ es ∧ Writes m.dnsSvc answer key) ∧
        (∀ es' σ', ServesTo o x m es' σ' → Settled es σ → Settled es' σ' → SameMessages es es' →
          ∀ call, (cgroupConnect4 o σ.maps call).ctx = (cgroupConnect4 o σ'.maps call).ctx) := by
  obtain ⟨ip, hip, hob⟩ := serving_objs hstart
  have hempty := @servingObjects_empty o ip cfg.proxyPort
  refine ⟨ip, hip, ⟨_, _, hob, rfl⟩, ?_⟩
  rintro es σ ⟨ob, hob', hrun⟩
  obtain rfl := Option.some.inj (hob.symm.trans hob')
  have hproxy : σ.maps.proxyConfig = proxyValue o ip cfg.proxyPort := run_proxyConfig hrun
  refine ⟨?_, ?_, ?_⟩
  · intro call
    exact connect_outcome hproxy (known_iff_intercepted hempty hrun _)
  · intro hset key
    exact known_iff_messages hempty hrun hset.1 hset.2 key
  · rintro es' σ' ⟨ob', hob'', hrun'⟩ hset hset' hsame call
    obtain rfl := Option.some.inj (hob.symm.trans hob'')
    -- whether the address is known is all the hook takes from the run
    refine connect_ctx_congr call (hproxy.trans (run_proxyConfig hrun').symm) ?_
    rw [known_iff_messages hempty hrun hset.1 hset.2,
      known_iff_messages hempty hrun' hset'.1 hset'.2]
    constructor
    · rintro ⟨answer, hmsg, hw⟩
      exact ⟨answer, (hsame answer).mp hmsg, hw⟩
    · rintro ⟨answer, hmsg, hw⟩
      exact ⟨answer, (hsame answer).mpr hmsg, hw⟩

/-- One answer for `api.openai.com`, and the write it makes. -/
def openaiRun : List Event :=
  [.dnsMessage [.a ⟨ascii "api.openai.com.", 300⟩ [104, 18, 6, 192]],
    .write 0 openaiDestination 1]

theorem openaiRun_serves (maps : Maps) :
    run (step .little ⟨agentConfig.aiDomains⟩) (start maps) openaiRun =
      some ⟨writeDestination .little maps openaiDestination 1, [[]], [], []⟩ := by
  have hcalls : (Service.mk agentConfig.aiDomains).processAnswer
      [.a ⟨ascii "api.openai.com.", 300⟩ [104, 18, 6, 192]] = [openaiDestination] := by decide
  simp [run, step, start, openaiRun, hcalls]

/-- The agent's first start on a node without any failure. -/
theorem agent_starts :
    (newManager .little (fun _ => 2) (fun _ => .ok) agentConfig).run Node.boot =
      (.ok (newManagerOf (fun _ => 2) agentConfig Node.boot),
        afterAttach .little (fun _ => 2) (fun _ => .ok) agentConfig ⟨10, 100, 0, 50⟩ Node.boot) :=
  newManager_ok ⟨rfl, by decide, rfl, rfl, .inl rfl, rfl, rfl⟩ (by decide) rfl

theorem agent_serves {es : List Event} {σ : State}
    (h : run (step .little ⟨agentConfig.aiDomains⟩)
      (start (servingObjects .little ⟨10, 100, 0, 50⟩ 8443).maps) es = some σ) :
    ServesTo .little
      (afterAttach .little (fun _ => 2) (fun _ => .ok) agentConfig ⟨10, 100, 0, 50⟩ Node.boot)
      (newManagerOf (fun _ => 2) agentConfig Node.boot) es σ :=
  ⟨_, afterAttach_objs _, h⟩

theorem whole_run_interception_openai :
    ∃ m x σ, (newManager .little (fun _ => 2) (fun _ => .ok) agentConfig).run Node.boot =
        (.ok m, x) ∧
      ServesTo .little x m openaiRun σ ∧
      Holds .little (cgroupConnect4 .little σ.maps
        (curlConnect .little openaiDestination.ip4 1 6)).ctx ⟨10, 100, 0, 50⟩ 8443 := by
  have hserves := agent_serves (openaiRun_serves _)
  refine ⟨_, _, _, agent_starts, hserves, ?_⟩
  obtain ⟨ip, hip, _, h⟩ := whole_run_interception _ _ _ _ _ _ _ agent_starts
  have hip' : parseIP4 agentConfig.proxyIP = some ⟨10, 100, 0, 50⟩ := by decide
  obtain rfl := Option.some.inj (hip.symm.trans hip')
  have hall := (h openaiRun _ hserves).1 (curlConnect .little openaiDestination.ip4 1 6)
  refine hall.redirected ⟨openaiRun.take 1, 0, openaiDestination, 1, [], rfl, ?_, List.not_mem_nil⟩
  exact (destKey_eq .little openaiDestination.ip4).symm

/-! ## Sockets other than TCP -/

def sockStream : UInt32 := 1
def ipprotoTcp : UInt32 := 6

def IsTcp (ctx : SockAddr) : Prop := ctx.type = sockStream ∧ ctx.protocol = ipprotoTcp

/-- The call leaves address and port alone and emits no event. -/
def Untouched (o : ByteOrder) (maps : Maps) (call : ConnectCall) : Prop :=
  (cgroupConnect4 o maps call).ctx.userIp4 = call.ctx.userIp4 ∧
    (cgroupConnect4 o maps call).ctx.userPort = call.ctx.userPort ∧
    (cgroupConnect4 o maps call).submitted = none

/-- A call is untouched when its address is unknown; otherwise only the connects
to the proxy itself without a ring slot are. -/
theorem untouched_iff {maps : Maps} {ip : Ip4} {port : UInt16} {call : ConnectCall}
    (hproxy : maps.proxyConfig = proxyValue o ip port) :
    Untouched o maps call ↔
      ¬ (maps.aiDestinations (o.put32 call.ctx.userIp4)).isSome ∨
        (call.slot = none ∧ Holds o call.ctx ip port) := by
  cases h : maps.aiDestinations (o.put32 call.ctx.userIp4) with
  | none =>
      unfold Untouched
      rw [cgroupConnect4_absent h]
      simp
  | some info =>
      have hholds := redirected_holds hproxy h
      -- a known address is rewritten; that shows unless it is the proxy's already
      have hsub : (cgroupConnect4 o maps call).submitted = none ↔ call.slot = none := by
        rw [cgroupConnect4_present h]
        exact Option.map_eq_none_iff
      unfold Untouched
      rw [hsub]
      constructor
      · rintro ⟨hip, hport, hslot⟩
        refine Or.inr ⟨hslot, ?_, ?_, ?_⟩
        · rw [← hip]
          exact hholds.address
        · rw [← hport]
          exact hholds.narrow
        · rw [← hport]
          exact hholds.port
      · rintro (hnone | ⟨hslot, hctx⟩)
        · exact absurd rfl hnone
        · obtain ⟨hip, hport⟩ := hholds.unique hctx
          exact ⟨hip, hport, hslot⟩

/-- Over any run, the sockets other than TCP ones are all left alone exactly when
each of their connects goes to an address that is not intercepted at the time (or
goes to the proxy already and finds the ring full). -/
theorem non_tcp_untouched_iff (o : ByteOrder) (ifindex : GoString → Nat) (plan : Plan)
    (cfg : Config) (n x : Node) (m : Manager)
    (hstart : (newManager o ifindex plan cfg).run n = (.ok m, x)) :
    ∃ ip, parseIP4 cfg.proxyIP = some ip ∧ ∀ es σ, ServesTo o x m es σ →
      ((∀ pre call post τ, es = pre ++ .connect call :: post → ServesTo o x m pre τ →
          ¬ IsTcp call.ctx → Untouched o τ.maps call) ↔
        (∀ pre call post, es = pre ++ .connect call :: post → ¬ IsTcp call.ctx →
          ¬ Intercepted pre (o.put32 call.ctx.userIp4) ∨
            (call.slot = none ∧ Holds o call.ctx ip cfg.proxyPort))) := by
  obtain ⟨ip, hip, hob⟩ := serving_objs hstart
  have hempty := @servingObjects_empty o ip cfg.proxyPort
  have hcall : ∀ pre τ call, ServesTo o x m pre τ → (Untouched o τ.maps call ↔
      ¬ Intercepted pre (o.put32 call.ctx.userIp4) ∨
        (call.slot = none ∧ Holds o call.ctx ip cfg.proxyPort)) := by
    rintro pre τ call ⟨ob, hob', hrun⟩
    obtain rfl := Option.some.inj (hob.symm.trans hob')
    have hproxy : τ.maps.proxyConfig = proxyValue o ip cfg.proxyPort := run_proxyConfig hrun
    rw [untouched_iff hproxy, known_iff_intercepted hempty hrun]
  refine ⟨ip, hip, ?_⟩
  rintro es σ ⟨ob, hob', hrun⟩
  constructor
  · intro h pre call post hes htcp
    -- the run passes through a state right before the call
    rw [hes] at hrun
    obtain ⟨τ, hpre, _⟩ := run_append.mp hrun
    have hτ : ServesTo o x m pre τ := ⟨ob, hob', hpre⟩
    exact (hcall pre τ call hτ).mp (h pre call post τ hes hτ htcp)
  · intro h pre call post τ hes hτ htcp
    exact (hcall pre τ call hτ).mpr (h pre call post hes htcp)

/-- A resolver's socket, after the answer for `api.openai.com` has been written. -/
theorem non_tcp_untouched_iff_dns :
    ∃ m x σ, (newManager .little (fun _ => 2) (fun _ => .ok) agentConfig).run Node.boot =
        (.ok m, x) ∧
      ServesTo .little x m
        (openaiRun ++ [.connect (curlConnect .little ⟨8, 8, 8, 8⟩ 2 17)]) σ ∧
      ∀ τ, ServesTo .little x m openaiRun τ →
        Untouched .little τ.maps (curlConnect .little ⟨8, 8, 8, 8⟩ 2 17) := by
  have hrun := openaiRun_serves (servingObjects .little ⟨10, 100, 0, 50⟩ 8443).maps
  have hserves := @agent_serves
    (openaiRun ++ [.connect (curlConnect .little ⟨8, 8, 8, 8⟩ 2 17)]) _
    (run_append.mpr ⟨_, hrun, rfl⟩)
  refine ⟨_, _, _, agent_starts, hserves, ?_⟩
  obtain ⟨ip, _, h⟩ := non_tcp_untouched_iff _ _ _ _ _ _ _ agent_starts
  intro τ hτ
  refine (h _ _ hserves).mpr ?_ openaiRun _ [] τ rfl hτ ?_
  · intro pre call post hes _
    -- the connect comes last
    obtain ⟨rfl, rfl⟩ : pre = openaiRun ∧ call = curlConnect .little ⟨8, 8, 8, 8⟩ 2 17 := by
      match pre with
      | [] => simp [openaiRun] at hes
      | [e] => simp [openaiRun] at hes
      | [e, e'] =>
          simp only [openaiRun, List.cons_append, List.nil_append, List.cons.injEq,
            Event.connect.injEq] at hes
          obtain ⟨rfl, rfl, rfl, _⟩ := hes
          exact ⟨rfl, rfl⟩
      | e :: e' :: e'' :: rest => simp [openaiRun] at hes
    left
    have hother : ByteOrder.little.put32 (curlConnect .little ⟨8, 8, 8, 8⟩ 2 17).ctx.userIp4 ≠
        destKey .little openaiDestination.ip4 := by decide
    rw [← known_iff_intercepted (servingObjects_empty _ _) hrun,
      writeDestination_of_ne .little _ _ _ hother, servingObjects_empty]
    simp
  · rintro ⟨htype, _⟩
    exact absurd htype (by decide)

/-- A UDP connect to an intercepted address is redirected and reported. -/
theorem udp_connect_redirected :
    ∃ m x σ, (newManager .little (fun _ => 2) (fun _ => .ok) agentConfig).run Node.boot =
        (.ok m, x) ∧
      ServesTo .little x m openaiRun σ ∧
      ¬ IsTcp (curlConnect .little openaiDestination.ip4 2 17).ctx ∧
      ¬ Untouched .little σ.maps (curlConnect .little openaiDestination.ip4 2 17) := by
  refine ⟨_, _, _, agent_starts, agent_serves (openaiRun_serves _), ?_, ?_⟩
  · rintro ⟨htype, _⟩
    exact absurd htype (by decide)
  · rintro ⟨_, _, hsub⟩
    have hknown := writeDestination_self .little
      (servingObjects .little ⟨10, 100, 0, 50⟩ 8443).maps openaiDestination 1
    rw [cgroupConnect4_present hknown] at hsub
    cases hsub

end AiInterceptor.Theorems.Interception
