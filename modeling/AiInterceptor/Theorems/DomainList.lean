import AiInterceptor.Theorems.Destinations
import AiInterceptor.Theorems.EndToEnd

/-!
# Agents with different domain lists

The list of AI domains enters everywhere through `isAIDomain`: the first loop starts a
chain at an AI domain, the second one writes for an AI domain or the end of a chain. So
what an agent writes for a list in two parts is what it writes for either part
(`writes_append`), and over whole runs an agent for both parts redirects as the two
agents for the parts do, one hook after the other (`domains_union`).
-/

namespace AiInterceptor.Theorems.DomainList

open Lib Bpf Go Agent Destinations Capture EndToEnd

/-! ## One answer -/

section Answer

variable {ds ds₁ ds₂ : List GoString} {answer : List RR}

theorem isAIDomain_append (ds₁ ds₂ : List GoString) (hostname : GoString) :
    (Service.mk (ds₁ ++ ds₂)).isAIDomain hostname =
      ((Service.mk ds₁).isAIDomain hostname || (Service.mk ds₂).isAIDomain hostname) :=
  List.any_append

/-- The list decides where a chain may start, and nothing else about it. -/
theorem chain_append {hops : List Hop} {origin last : GoString} :
    CnameChain ⟨ds₁ ++ ds₂⟩ answer hops origin last ↔
      CnameChain ⟨ds₁⟩ answer hops origin last ∨ CnameChain ⟨ds₂⟩ answer hops origin last := by
  constructor
  · intro h
    have hai := h.ai
    rw [isAIDomain_append, Bool.or_eq_true] at hai
    rcases hai with hai | hai
    · exact .inl ⟨h.nonempty, h.records, h.increasing, h.linked, h.starts, hai, h.ends⟩
    · exact .inr ⟨h.nonempty, h.records, h.increasing, h.linked, h.starts, hai, h.ends⟩
  · rintro (h | h)
    · refine ⟨h.nonempty, h.records, h.increasing, h.linked, h.starts, ?_, h.ends⟩
      rw [isAIDomain_append, h.ai, Bool.true_or]
    · refine ⟨h.nonempty, h.records, h.increasing, h.linked, h.starts, ?_, h.ends⟩
      rw [isAIDomain_append, h.ai, Bool.or_true]

/-- The names whose addresses are written. -/
def Serves (ds : List GoString) (answer : List RR) (name : GoString) : Prop :=
  (Service.mk ds).isAIDomain name = true ∨
    ∃ hops origin, CnameChain ⟨ds⟩ answer hops origin name

theorem serves_append {name : GoString} :
    Serves (ds₁ ++ ds₂) answer name ↔ Serves ds₁ answer name ∨ Serves ds₂ answer name := by
  unfold Serves
  rw [isAIDomain_append, Bool.or_eq_true]
  constructor
  · rintro ((h | h) | ⟨hops, origin, hchain⟩)
    · exact .inl (.inl h)
    · exact .inr (.inl h)
    · rcases chain_append.mp hchain with hchain | hchain
      · exact .inl (.inr ⟨hops, origin, hchain⟩)
      · exact .inr (.inr ⟨hops, origin, hchain⟩)
  · rintro ((h | ⟨hops, origin, hchain⟩) | (h | ⟨hops, origin, hchain⟩))
    · exact .inl (.inl h)
    · exact .inr ⟨hops, origin, chain_append.mpr (.inl hchain)⟩
    · exact .inl (.inr h)
    · exact .inr ⟨hops, origin, chain_append.mpr (.inr hchain)⟩

/-- The addresses written are those of the A records of such names. -/
theorem writes_iff (hne : [] ∉ ds) {key : List UInt8} :
    DataPlane.Writes ⟨ds⟩ answer key ↔
      ∃ hdr addr ip4, .a hdr addr ∈ answer ∧ to4 addr = some ip4 ∧ ip4.bytes = key ∧
        Serves ds answer (trimDot hdr.name) := by
  constructor
  · rintro ⟨d, hd, rfl⟩
    obtain ⟨rr, hrr, hdest⟩ := List.mem_filterMap.mp hd
    obtain ⟨hdr, addr, rfl, hip, _, hhost⟩ := destinationOf_eq_some.mp hdest
    exact ⟨hdr, addr, d.ip4, hrr, hip, rfl, (aiHostname_exists_iff hne answer _).mp ⟨_, hhost⟩⟩
  · rintro ⟨hdr, addr, ip4, hrr, hip, rfl, hserves⟩
    obtain ⟨host, hhost⟩ := (aiHostname_exists_iff hne answer _).mpr hserves
    refine ⟨⟨ip4, host, hdr.ttl⟩, List.mem_filterMap.mpr ⟨_, hrr, ?_⟩, rfl⟩
    exact destinationOf_eq_some.mpr ⟨hdr, addr, rfl, hip, rfl, hhost⟩

theorem writes_append (hne : [] ∉ ds₁ ++ ds₂) {key : List UInt8} :
    DataPlane.Writes ⟨ds₁ ++ ds₂⟩ answer key ↔
      DataPlane.Writes ⟨ds₁⟩ answer key ∨ DataPlane.Writes ⟨ds₂⟩ answer key := by
  rw [List.mem_append, not_or] at hne
  rw [writes_iff (by rw [List.mem_append, not_or]; exact hne), writes_iff hne.1, writes_iff hne.2]
  constructor
  · rintro ⟨hdr, addr, ip4, hrr, hip, hkey, hserves⟩
    rcases serves_append.mp hserves with hserves | hserves
    · exact .inl ⟨hdr, addr, ip4, hrr, hip, hkey, hserves⟩
    · exact .inr ⟨hdr, addr, ip4, hrr, hip, hkey, hserves⟩
  · rintro (⟨hdr, addr, ip4, hrr, hip, hkey, hserves⟩ | ⟨hdr, addr, ip4, hrr, hip, hkey, hserves⟩)
    · exact ⟨hdr, addr, ip4, hrr, hip, hkey, serves_append.mpr (.inl hserves)⟩
    · exact ⟨hdr, addr, ip4, hrr, hip, hkey, serves_append.mpr (.inr hserves)⟩

end Answer

/-! ## Whole runs -/

/-- One hook for both maps, or a hook for each: a context that is redirected once is not
changed by a second redirection to the same proxy. -/
theorem connect_compose {o : ByteOrder} {m m₁ m₂ : Maps}
    (hproxy₁ : m₁.proxyConfig = m.proxyConfig) (hproxy₂ : m₂.proxyConfig = m.proxyConfig)
    (hknown : ∀ key, (m.aiDestinations key).isSome ↔
      (m₁.aiDestinations key).isSome ∨ (m₂.aiDestinations key).isSome) (call : ConnectCall) :
    (cgroupConnect4 o m call).ctx =
      (cgroupConnect4 o m₂ { call with ctx := (cgroupConnect4 o m₁ call).ctx }).ctx := by
  have hk := hknown (o.put32 call.ctx.userIp4)
  cases h₁ : m₁.aiDestinations (o.put32 call.ctx.userIp4) with
  | some info₁ =>
      obtain ⟨info, hinfo⟩ := Option.isSome_iff_exists.mp (hk.mpr (.inl (by rw [h₁]; rfl)))
      rw [cgroupConnect4_present hinfo, cgroupConnect4_present h₁, hproxy₁]
      -- the second hook sees the proxy's address, known to it or not
      cases h₂ : m₂.aiDestinations (o.put32 (o.get32 (m.proxyConfig.load .ip))) with
      | none => rw [cgroupConnect4_absent h₂]
      | some info₂ => rw [cgroupConnect4_present h₂, hproxy₂]
  | none =>
      rw [cgroupConnect4_absent h₁]
      refine Interception.connect_ctx_congr call hproxy₂.symm ?_
      rw [hk, h₁]
      simp

/-- **Two domain lists, one agent or two.** Three agents that have seen the same
messages, for a list, for another one and for both together: without evictions and with
nothing on its way, the third knows exactly the addresses that one of the others
knows, and its hook does to every connect what the two other hooks do one after the
other. -/
theorem domains_union (o : ByteOrder) (ds₁ ds₂ : List GoString) (hne : [] ∉ ds₁ ++ ds₂)
    {ε : Type} (unpack : List UInt8 → Except ε (List RR)) (maps : Maps)
    (hempty : ∀ key, maps.aiDestinations key = none)
    (es es₁ es₂ : List Pipeline.Event) (σ σ₁ σ₂ : Pipeline.State)
    (hrun : run (Pipeline.step o ⟨ds₁ ++ ds₂⟩ unpack) (Pipeline.start maps) es = some σ)
    (hrun₁ : run (Pipeline.step o ⟨ds₁⟩ unpack) (Pipeline.start maps) es₁ = some σ₁)
    (hrun₂ : run (Pipeline.step o ⟨ds₂⟩ unpack) (Pipeline.start maps) es₂ = some σ₂)
    (hsame₁ : es₁.flatMap arrival = es.flatMap arrival)
    (hsame₂ : es₂.flatMap arrival = es.flatMap arrival)
    (hno : ∀ key, .evict key ∉ es ∧ .evict key ∉ es₁ ∧ .evict key ∉ es₂)
    (hidle : Idle σ) (hidle₁ : Idle σ₁) (hidle₂ : Idle σ₂) :
    (∀ key, (σ.maps.aiDestinations key).isSome ↔
      (σ₁.maps.aiDestinations key).isSome ∨ (σ₂.maps.aiDestinations key).isSome) ∧
      ∀ call, (cgroupConnect4 o σ.maps call).ctx =
        (cgroupConnect4 o σ₂.maps { call with ctx := (cgroupConnect4 o σ₁.maps call).ctx }).ctx := by
  have hknown : ∀ key, (σ.maps.aiDestinations key).isSome ↔
      (σ₁.maps.aiDestinations key).isSome ∨ (σ₂.maps.aiDestinations key).isSome := by
    intro key
    rw [known_iff_arrived hempty (fun k => (hno k).1) hidle hrun,
      known_iff_arrived hempty (fun k => (hno k).2.1) hidle₁ hrun₁,
      known_iff_arrived hempty (fun k => (hno k).2.2) hidle₂ hrun₂, hsame₁, hsame₂]
    constructor
    · rintro ⟨msg, hmsg, answer, hun, hw⟩
      rcases (writes_append hne).mp hw with hw | hw
      · exact .inl ⟨msg, hmsg, answer, hun, hw⟩
      · exact .inr ⟨msg, hmsg, answer, hun, hw⟩
    · rintro (⟨msg, hmsg, answer, hun, hw⟩ | ⟨msg, hmsg, answer, hun, hw⟩)
      · exact ⟨msg, hmsg, answer, hun, (writes_append hne).mpr (.inl hw)⟩
      · exact ⟨msg, hmsg, answer, hun, (writes_append hne).mpr (.inr hw)⟩
  refine ⟨hknown, ?_⟩
  intro call
  have hproxy := pipeline_proxyConfig hrun
  exact connect_compose ((pipeline_proxyConfig hrun₁).trans hproxy.symm)
    ((pipeline_proxyConfig hrun₂).trans hproxy.symm) hknown call

/-- The answer for `api.openai.com`, seen by an agent for `openai.com`, by one for
`anthropic.com`, which writes nothing, and by one for both. -/
theorem domains_union_openai :
    ∃ σ σ₂ : Pipeline.State,
      run (Pipeline.step .little ⟨[ascii "openai.com"] ++ [ascii "anthropic.com"]⟩ openaiUnpack)
        (Pipeline.start Maps.empty) openaiRun = some σ ∧
      run (Pipeline.step .little ⟨[ascii "anthropic.com"]⟩ openaiUnpack)
        (Pipeline.start Maps.empty) (openaiRun.take 2) = some σ₂ ∧
      (σ.maps.aiDestinations openaiDestination.ip4.bytes).isSome ∧
      (σ₂.maps.aiDestinations openaiDestination.ip4.bytes).isSome = false := by
  have hboth : (Service.mk ([ascii "openai.com"] ++ [ascii "anthropic.com"])).processAnswer
      openaiAnswer = [openaiDestination] := by decide
  have hfirst : (Service.mk [ascii "openai.com"]).processAnswer openaiAnswer =
      [openaiDestination] := by decide
  have hsecond : (Service.mk [ascii "anthropic.com"]).processAnswer openaiAnswer = [] := by decide
  have hrun := @answer_run .little _ _ openaiUnpack _ _ _ _ _ openaiFrame_accepted rfl hboth
    Maps.empty (Record.zero dnsEventT) 1
  have hrun₁ := @answer_run .little _ _ openaiUnpack _ _ _ _ _ openaiFrame_accepted rfl hfirst
    Maps.empty (Record.zero dnsEventT) 1
  have hrun₂ := @answer_read .little ⟨[ascii "anthropic.com"]⟩ _ openaiUnpack _ _ _ _
    openaiFrame_accepted rfl Maps.empty (Record.zero dnsEventT)
  rw [hsecond] at hrun₂
  have hno : ∀ key, .evict key ∉ openaiRun ∧ .evict key ∉ openaiRun ∧
      .evict key ∉ openaiRun.take 2 := by
    intro key
    simp [openaiRun]
  obtain ⟨hknown, _⟩ := domains_union .little [ascii "openai.com"] [ascii "anthropic.com"]
    (by decide) openaiUnpack Maps.empty (fun _ => rfl) openaiRun openaiRun (openaiRun.take 2) _ _ _
    hrun hrun₁ hrun₂ rfl rfl hno ⟨rfl, rfl⟩ ⟨rfl, rfl⟩ ⟨rfl, rfl⟩
  have hwritten := writeDestination_self .little Maps.empty openaiDestination 1
  rw [destKey_eq] at hwritten
  refine ⟨_, _, hrun, hrun₂, (hknown _).mpr (.inl ?_), rfl⟩
  rw [hwritten]
  rfl

end AiInterceptor.Theorems.DomainList
