import AiInterceptor.Theorems.EndToEnd

/-!
# Addresses in the log

The proxy's address is a text three times: in the configuration, where `net.ParseIP`
reads it, in the map and in the ring as bytes, and in a line of the log, where
`net.IP.String` prints it. Printing is undone by parsing (`parseIP4_ipString`), so that
every line stands for a connect of the run and its texts lead back to exactly the
address that was dialled and the proxy that was configured (`log_addresses`).
-/

namespace AiInterceptor.Theorems.LogAddresses

open Lib Bpf Go Agent Agent.Pipeline Capture EndToEnd

/-! ## Dotted decimals -/

section Text

variable {rest : GoString} {prev : Option UInt8} {val digLen d : Nat} {fields : List UInt8}

def digit (n : Nat) : UInt8 := UInt8.ofNat (48 + n)

theorem digit_toNat (h : d < 10) : (digit d).toNat = 48 + d :=
  UInt8.toNat_ofNat_of_lt' (show 48 + d < 256 by omega)

/-- One to three digits, without leading zeros. -/
theorem decimal_ofNat : ∀ n < 256, decimal (UInt8.ofNat n) =
    if n < 10 then [digit n]
    else if n < 100 then [digit (n / 10), digit (n % 10)]
    else [digit (n / 100), digit (n / 10 % 10), digit (n % 10)] := by
  decide +kernel

theorem decimal_eq (b : UInt8) : decimal b =
    if b.toNat < 10 then [digit b.toNat]
    else if b.toNat < 100 then [digit (b.toNat / 10), digit (b.toNat % 10)]
    else [digit (b.toNat / 100), digit (b.toNat / 10 % 10), digit (b.toNat % 10)] := by
  have htext := decimal_ofNat b.toNat b.toNat_lt
  rwa [UInt8.ofNat_toNat] at htext

theorem digit_range (h : d < 10) : 48 ≤ digit d ∧ digit d ≤ 57 := by
  rw [UInt8.le_iff_toNat_le, UInt8.le_iff_toNat_le, digit_toNat h]
  exact ⟨Nat.le_add_right 48 d, show 48 + d ≤ 57 by omega⟩

theorem digit_ne {c : UInt8} (h : d < 10) (hc : c < 48 ∨ 57 < c) : digit d ≠ c := by
  rintro rfl
  have hrange := digit_range h
  rcases hc with hc | hc
  · exact absurd hrange.1 (UInt8.not_le.mpr hc)
  · exact absurd hrange.2 (UInt8.not_le.mpr hc)

theorem parse_digit (h : d < 10) (hlead : ¬ (digLen = 1 ∧ val = 0)) (hval : val * 10 + d ≤ 255) :
    parseIPv4Loop (digit d :: rest) prev val digLen fields =
      parseIPv4Loop rest (some (digit d)) (val * 10 + d) (digLen + 1) fields := by
  have hsub : (digit d).toNat - 48 = d := by
    rw [digit_toNat h]
    omega
  rw [parseIPv4Loop, if_pos (digit_range h), if_neg hlead, hsub]
  exact if_neg (Nat.not_lt.mpr hval)

/-- An octet is read to its last digit. -/
theorem parse_octet (b : UInt8) (rest : GoString) (prev : Option UInt8) (fields : List UInt8) :
    ∃ d k, d < 10 ∧ parseIPv4Loop (decimal b ++ rest) prev 0 0 fields =
      parseIPv4Loop rest (some (digit d)) b.toNat k fields := by
  have hlt : b.toNat < 256 := b.toNat_lt
  rw [decimal_eq]
  split
  · rename_i hsmall
    refine ⟨b.toNat, 1, hsmall, ?_⟩
    rw [List.singleton_append, parse_digit hsmall (by omega) (by omega), Nat.zero_mul,
      Nat.zero_add]
  · split
    · refine ⟨b.toNat % 10, 2, by omega, ?_⟩
      rw [List.cons_append, List.singleton_append, parse_digit (by omega) (by omega) (by omega),
        parse_digit (by omega) (by omega) (by omega)]
      congr 1
      omega
    · refine ⟨b.toNat % 10, 3, by omega, ?_⟩
      rw [List.cons_append, List.cons_append, List.singleton_append,
        parse_digit (by omega) (by omega) (by omega), parse_digit (by omega) (by omega) (by omega),
        parse_digit (by omega) (by omega) (by omega)]
      congr 1
      omega

theorem parse_dot {k : Nat} (h : d < 10) (hrest : rest ≠ []) (hfields : fields.length ≠ 3) :
    parseIPv4Loop (ascii "." ++ rest) (some (digit d)) val k fields =
      parseIPv4Loop rest (some 46) 0 0 (fields ++ [UInt8.ofNat val]) := by
  show parseIPv4Loop (46 :: rest) (some (digit d)) val k fields = _
  have hprev : ¬ (some (digit d) = none ∨ rest = [] ∨ some (digit d) = some 46) := by
    rintro (hp | hp | hp)
    · cases hp
    · exact hrest hp
    · exact digit_ne h (.inl (by decide)) (Option.some.inj hp)
  rw [parseIPv4Loop, if_neg (by decide), if_pos rfl, if_neg hprev, if_neg hfields]

theorem decimal_ne_nil (b : UInt8) : decimal b ≠ [] := by
  rw [decimal_eq]
  split
  · exact List.cons_ne_nil _ _
  · split
    · exact List.cons_ne_nil _ _
    · exact List.cons_ne_nil _ _

theorem parseIPv4Fields_ipString (ip : Ip4) : parseIPv4Fields (ipString ip) = some ip.bytes := by
  have hne : ∀ (b : UInt8) (s : GoString), decimal b ++ s ≠ [] := by
    intro b s h
    exact decimal_ne_nil b (List.append_eq_nil_iff.mp h).1
  have htext : ipString ip = decimal ip.b0 ++ (ascii "." ++ (decimal ip.b1 ++ (ascii "." ++
      (decimal ip.b2 ++ (ascii "." ++ (decimal ip.b3 ++ [])))))) := by
    simp only [ipString, List.append_assoc, List.append_nil]
  rw [parseIPv4Fields, htext]
  obtain ⟨d₀, k₀, hd₀, h₀⟩ := parse_octet ip.b0 (ascii "." ++ (decimal ip.b1 ++ (ascii "." ++
    (decimal ip.b2 ++ (ascii "." ++ (decimal ip.b3 ++ [])))))) none []
  rw [h₀, parse_dot hd₀ (hne _ _) (by decide)]
  obtain ⟨d₁, k₁, hd₁, h₁⟩ := parse_octet ip.b1 (ascii "." ++ (decimal ip.b2 ++ (ascii "." ++
    (decimal ip.b3 ++ [])))) (some 46) ([] ++ [UInt8.ofNat ip.b0.toNat])
  rw [h₁, parse_dot hd₁ (hne _ _) (by simp)]
  obtain ⟨d₂, k₂, hd₂, h₂⟩ := parse_octet ip.b2 (ascii "." ++ (decimal ip.b3 ++ [])) (some 46)
    ([] ++ [UInt8.ofNat ip.b0.toNat] ++ [UInt8.ofNat ip.b1.toNat])
  rw [h₂, parse_dot hd₂ (hne _ _) (by simp)]
  obtain ⟨d₃, k₃, hd₃, h₃⟩ := parse_octet ip.b3 [] (some 46)
    ([] ++ [UInt8.ofNat ip.b0.toNat] ++ [UInt8.ofNat ip.b1.toNat] ++ [UInt8.ofNat ip.b2.toNat])
  rw [h₃, parseIPv4Loop, if_neg (by simp)]
  simp only [UInt8.ofNat_toNat]
  rfl

/-- A digit is none of the three separators. -/
theorem decimal_no_separator {b c : UInt8} (h : c ∈ decimal b) : ¬ (c = 46 ∨ c = 58 ∨ c = 37) := by
  have hdigit : ∃ d, d < 10 ∧ c = digit d := by
    have hlt : b.toNat < 256 := b.toNat_lt
    rw [decimal_eq] at h
    split at h
    · exact ⟨b.toNat, by omega, List.mem_singleton.mp h⟩
    · split at h
      · rcases List.mem_cons.mp h with rfl | h
        · exact ⟨b.toNat / 10, by omega, rfl⟩
        · exact ⟨b.toNat % 10, by omega, List.mem_singleton.mp h⟩
      · rcases List.mem_cons.mp h with rfl | h
        · exact ⟨b.toNat / 100, by omega, rfl⟩
        · rcases List.mem_cons.mp h with rfl | h
          · exact ⟨b.toNat / 10 % 10, by omega, rfl⟩
          · exact ⟨b.toNat % 10, by omega, List.mem_singleton.mp h⟩
  obtain ⟨d, hd, rfl⟩ := hdigit
  rintro (h | h | h)
  · exact digit_ne hd (.inl (by decide)) h
  · exact digit_ne hd (.inr (by decide)) h
  · exact digit_ne hd (.inl (by decide)) h

/-- Parsing undoes printing. -/
theorem parseIP4_ipString (ip : Ip4) : parseIP4 (ipString ip) = some ip := by
  have hfind : (ipString ip).find? (fun c => c = 46 ∨ c = 58 ∨ c = 37) = some 46 := by
    have htext : ipString ip = decimal ip.b0 ++ 46 :: (decimal ip.b1 ++ ascii "." ++
        decimal ip.b2 ++ ascii "." ++ decimal ip.b3) := by
      simp only [ipString, List.append_assoc]
      rfl
    have hnone : (decimal ip.b0).find? (fun c => c = 46 ∨ c = 58 ∨ c = 37) = none := by
      rw [List.find?_eq_none]
      intro c hc
      rw [decide_eq_true_eq]
      exact decimal_no_separator hc
    rw [htext, List.find?_append, hnone]
    rfl
  rw [parseIP4, parseIP, hfind]
  show ((parseIPv4Fields (ipString ip)).map _).bind to4 = _
  rw [parseIPv4Fields_ipString]
  rfl

end Text

/-! ## Lines and connects -/

section Lines

variable {o : ByteOrder} {svc : Service} {ε : Type} {unpack : List UInt8 → Except ε (List RR)}
  {maps : Maps} {ip : Ip4} {port : UInt16} {es hist : List Event} {σ σ' : State} {e : Event}

/-- The line is that of a connect among these events: its texts are the address of the
connect and that of the proxy. -/
def StandsFor (o : ByteOrder) (ip : Ip4) (port : UInt16) (es : List Event)
    (line : RedirectLine) : Prop :=
  ∃ call, .connect call ∈ es ∧ line.pid = call.task.tid ∧
    parseIP4 line.originalIp = some (Ip4.ofBytes (o.put32 call.ctx.userIp4)) ∧
    line.originalPort = ntohs o call.ctx.userPort.toUInt16 ∧
    parseIP4 line.proxyIp = some ip ∧ line.proxyPort = port

theorem StandsFor.snoc {line : RedirectLine} (h : StandsFor o ip port es line) (e : Event) :
    StandsFor o ip port (es ++ [e]) line := by
  obtain ⟨call, hcall, hline⟩ := h
  exact ⟨call, List.mem_append_left _ hcall, hline⟩

theorem standsFor_connect {call : ConnectCall} {line : RedirectLine}
    (hproxy : maps.proxyConfig = proxyValue o ip port)
    (hline : line ∈ ((cgroupConnect4 o maps call).submitted.map Record.bytes).toList.filterMap
      (readRedirectEvent o)) :
    StandsFor o ip port (es ++ [.connect call]) line := by
  obtain ⟨sample, hsample, hread⟩ := List.mem_filterMap.mp hline
  cases hinfo : maps.aiDestinations (o.put32 call.ctx.userIp4) with
  | none =>
      rw [cgroupConnect4_absent hinfo] at hsample
      exact absurd hsample List.not_mem_nil
  | some info =>
      rw [cgroupConnect4_submitted hinfo] at hsample
      obtain ⟨record, hrecord, rfl⟩ := Option.map_eq_some_iff.mp (Option.mem_toList.mp hsample)
      obtain ⟨slot, _, rfl⟩ := Option.map_eq_some_iff.mp hrecord
      rw [readRedirectEvent, ringbufCast_eventRecord, Option.map_some, Option.some.injEq] at hread
      subst hread
      refine ⟨call, List.mem_append_right _ (List.mem_singleton.mpr rfl), rfl, ?_, rfl, ?_, ?_⟩
      · exact parseIP4_ipString _
      · show parseIP4 (uint32ToIP o (o.get32 (maps.proxyConfig.load .ip))) = some ip
        rw [hproxy, proxyValue_ip, uint32ToIP_get32, parseIP4_ipString]
      · show ntohs o (o.get16 (maps.proxyConfig.load .port)) = port
        rw [hproxy, proxyValue_port, ntohs_get16 o (ByteOrder.put16_length .big port),
          ByteOrder.get16_put16]

/-- A connect to a known address leaves a line if there is a slot for it. -/
theorem exists_line {call : ConnectCall} {info : Record aiDestInfoT} {slot : Record redirectEventT}
    (hinfo : maps.aiDestinations (o.put32 call.ctx.userIp4) = some info)
    (hslot : call.slot = some slot) :
    ∃ line, line ∈ ((cgroupConnect4 o maps call).submitted.map Record.bytes).toList.filterMap
      (readRedirectEvent o) := by
  have hread : ∃ line,
      readRedirectEvent o (eventRecord o maps call info slot).bytes = some line := by
    rw [readRedirectEvent, ringbufCast_eventRecord]
    exact ⟨_, rfl⟩
  obtain ⟨line, hline⟩ := hread
  refine ⟨line, List.mem_filterMap.mpr ⟨_, ?_, hline⟩⟩
  rw [cgroupConnect4_submitted hinfo, hslot]
  exact List.mem_singleton.mpr rfl

theorem standsFor_step (hproxy : σ.maps.proxyConfig = proxyValue o ip port)
    (h : ∀ line ∈ lines o σ, StandsFor o ip port hist line)
    (hstep : step o svc unpack σ e = some σ') :
    ∀ line ∈ lines o σ', StandsFor o ip port (hist ++ [e]) line := by
  have hsame : (∀ call, e ≠ .connect call) → ∀ line ∈ lines o σ',
      StandsFor o ip port (hist ++ [e]) line := by
    intro he line hline
    rw [lines_step he hstep] at hline
    exact (h line hline).snoc e
  cases e with
  | connect call =>
      obtain rfl := step_connect hstep
      intro line hline
      rw [lines, List.filterMap_append, ← List.append_assoc] at hline
      rcases List.mem_append.mp hline with hold | hnew
      · exact (h line hold).snoc _
      · exact standsFor_connect hproxy hnew
  | frame skb slot | readDns | write now | evict key | readRedirect =>
      exact hsame fun call hcall => by cases hcall

theorem standsFor_run (hproxy : maps.proxyConfig = proxyValue o ip port)
    (hrun : run (step o svc unpack) (start maps) es = some σ) :
    ∀ line ∈ lines o σ, StandsFor o ip port es line := by
  refine run_from (P := fun hist τ => ∀ line ∈ lines o τ, StandsFor o ip port hist line) ?_ ?_ hrun
  · intro line hline
    exact absurd hline List.not_mem_nil
  · intro hist τ e τ' hhist h hstep
    exact standsFor_step ((pipeline_proxyConfig hhist).trans hproxy) h hstep

end Lines

/-- **Every line leads back to a connect and to the configuration.** After a successful
start, in every state of every run, each line that is logged or on its way stands for a
connect of the run: `net.ParseIP` reads its texts back as the address the process has
dialled and as the proxy the agent was configured with, with the ports of both. -/
theorem log_addresses (o : ByteOrder) (ifindex : GoString → Nat) (plan : Plan) (cfg : Config)
    (n x : Node) (m : Manager) {ε : Type} (unpack : List UInt8 → Except ε (List RR))
    (hstart : (newManager o ifindex plan cfg).run n = (.ok m, x)) :
    ∃ ip ob, parseIP4 cfg.proxyIP = some ip ∧ x.objs m.objs = some ob ∧
      ∀ es σ, run (step o m.dnsSvc unpack) (start ob.maps) es = some σ →
        ∀ line ∈ σ.log ++ σ.ring.filterMap (readRedirectEvent o),
          StandsFor o ip cfg.proxyPort es line := by
  obtain ⟨ip, hip, hob⟩ := Interception.serving_objs hstart
  refine ⟨ip, _, hip, hob, ?_⟩
  intro es σ hrun
  exact standsFor_run rfl hrun

/-- A first start, the answer for `api.openai.com` and a connect to its address: the
line on its way names the proxy of the configuration. -/
theorem log_addresses_openai :
    ∃ m x ob σ line, (newManager .little (fun _ => 2) (fun _ => .ok) agentConfig).run Node.boot =
        (.ok m, x) ∧ x.objs m.objs = some ob ∧
      run (step .little m.dnsSvc openaiUnpack) (start ob.maps)
        (openaiRun ++ [.connect (curlConnect .little openaiDestination.ip4 1 6)]) = some σ ∧
      line ∈ σ.log ++ σ.ring.filterMap (readRedirectEvent .little) ∧
      parseIP4 line.proxyIp = some ⟨10, 100, 0, 50⟩ ∧ line.proxyPort = 8443 := by
  obtain ⟨ip, ob, hip, hob, h⟩ := log_addresses _ _ _ _ _ _ _ openaiUnpack
    Interception.agent_starts
  have hip' : parseIP4 agentConfig.proxyIP = some ⟨10, 100, 0, 50⟩ := by decide
  obtain rfl := Option.some.inj (hip.symm.trans hip')
  obtain ⟨σ, hσ, hring⟩ : ∃ σ, run (step .little ⟨agentConfig.aiDomains⟩ openaiUnpack)
      (start ob.maps) (openaiRun ++ [.connect (curlConnect .little openaiDestination.ip4 1 6)]) =
        some σ ∧ ∃ line, line ∈ σ.log ++ σ.ring.filterMap (readRedirectEvent .little) := by
    refine ⟨_, run_append.mpr ⟨_, openaiRun_ends ob.maps, rfl⟩, ?_⟩
    have hknown := writeDestination_self .little ob.maps openaiDestination 1
    have hkey : destKey .little openaiDestination.ip4 =
        ByteOrder.little.put32 (curlConnect .little openaiDestination.ip4 1 6).ctx.userIp4 := rfl
    rw [hkey] at hknown
    obtain ⟨line, hline⟩ := exists_line hknown rfl
    exact ⟨line, List.mem_append_right _ hline⟩
  obtain ⟨line, hline⟩ := hring
  obtain ⟨call, _, _, _, _, hproxy, hport⟩ := h _ σ hσ line hline
  exact ⟨_, _, ob, σ, line, Interception.agent_starts, hob, hσ, hline, hproxy, hport⟩

end AiInterceptor.Theorems.LogAddresses
