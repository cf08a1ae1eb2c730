import AiInterceptor.Logic.DataPlane

/-!
# The audit log

A redirect passes through four encodings before it is logged: the Go value of a
destination, the map value, the C event in a ring slot, and the Go view of that
slot. `Audit` is the log as it should be: a table of hostnames by address, and
one line for each redirected connect that found a ring slot. The data plane
refines it step by step (`Refines.step`), so over every run the log together with
the samples still in the ring is the audit trail (`audit_log_exact`).
-/

namespace AiInterceptor.Theorems.AuditLog

open Lib Bpf Go Agent Agent.DataPlane

variable {o : ByteOrder} {ip : Ip4} {port : UInt16}

/-! ## The log as it should be -/

/-- The line for a redirected connect: the application's own view of where it
was going, the process, and the proxy. -/
def redirectLine (o : ByteOrder) (ip : Ip4) (port : UInt16) (host : GoString)
    (call : ConnectCall) : RedirectLine :=
  { pid := call.task.tid
    process := call.task.comm.takeWhile (· ≠ 0)
    originalHost := host.take 64
    originalIp := ipString (Ip4.ofBytes (o.put32 call.ctx.userIp4))
    originalPort := ByteOrder.big.get16 (o.put16 call.ctx.userPort.toUInt16)
    proxyIp := ipString ip
    proxyPort := port }

structure Audit where
  /-- The hostname written for each known address. -/
  hosts : List UInt8 → Option GoString
  lines : List RedirectLine

def Audit.step (o : ByteOrder) (ip : Ip4) (port : UInt16) (a : Audit) : Event → Audit
  | .write _ d _ => { a with hosts := Function.update a.hosts d.ip4.bytes (some d.hostname) }
  | .evict key => { a with hosts := Function.update a.hosts key none }
  | .connect call =>
      match a.hosts (o.put32 call.ctx.userIp4), call.slot with
      | some host, some _ => { a with lines := a.lines ++ [redirectLine o ip port host call] }
      | _, _ => a
  | .dnsMessage _ => a
  | .readRedirect => a

/-- The audit trail of a run that starts with the hostnames `hosts`. -/
def audit (o : ByteOrder) (ip : Ip4) (port : UInt16) (hosts : List UInt8 → Option GoString)
    (es : List Event) : Audit :=
  es.foldl (Audit.step o ip port) ⟨hosts, []⟩

/-! ## Strings -/

/-- A NUL-free name reads back from its padded field. -/
theorem nullTermString_padded {name : List UInt8} (h : (0 : UInt8) ∉ name) (k : Nat) :
    nullTermString (name ++ List.replicate k 0) = name := by
  have hall : ∀ c ∈ name, decide (c ≠ 0) = true := by
    intro c hc
    rw [decide_eq_true_eq]
    rintro rfl
    exact h hc
  rw [nullTermString, List.takeWhile_append_of_pos hall, List.takeWhile_replicate]
  simp

/-- Also without a terminator, when the hostname fills the field. -/
theorem nullTermString_hostnameField {hostname : GoString} (h : (0 : UInt8) ∉ hostname) :
    nullTermString (hostnameField hostname) = hostname.take 64 :=
  nullTermString_padded (fun hmem => h (List.mem_of_mem_take hmem)) _

theorem nullTermString_comm (t : Task) :
    nullTermString (bpfGetCurrentComm t) = t.comm.takeWhile (· ≠ 0) := by
  have hnul : (0 : UInt8) ∉ t.comm.takeWhile (· ≠ 0) := by
    intro hmem
    have := List.mem_takeWhile_imp hmem
    simp at this
  have hshort : (t.comm.takeWhile (· ≠ 0)).length ≤ maxCommandSize - 1 := by
    -- a name of all sixteen bytes would have no NUL
    by_contra hlong
    have hle := (List.takeWhile_prefix (p := (· ≠ (0 : UInt8))) (l := t.comm)).length_le
    have heq := (List.takeWhile_prefix (p := (· ≠ (0 : UInt8))) (l := t.comm)).eq_of_length
      (by rw [t.comm_length] at hle ⊢; omega)
    rw [heq] at hnul
    exact hnul t.comm_nul
  unfold bpfGetCurrentComm
  rw [List.take_of_length_le hshort]
  exact nullTermString_padded hnul _

/-! ## One event -/

/-- What the reader makes of a submitted event, whatever the slot held before. -/
theorem readRedirectEvent_event {maps : Maps} {call : ConnectCall} {info : Record aiDestInfoT}
    {host : GoString} (slot : Record redirectEventT)
    (hproxy : maps.proxyConfig = proxyValue o ip port)
    (hhost : nullTermString (info.load .hostname) = host.take 64) :
    readRedirectEvent o (eventRecord o maps call info slot).bytes =
      some (redirectLine o ip port host call) := by
  have hproxyIp : maps.proxyConfig.load .ip = ip.bytes := by
    rw [hproxy]
    exact proxyValue_ip o ip port
  have hproxyPort : maps.proxyConfig.load .port = ByteOrder.big.put16 port := by
    rw [hproxy]
    exact proxyValue_port o ip port
  rw [readRedirectEvent, ringbufCast_eventRecord]
  simp only [Option.map_some, redirectLine, int8SliceToString, hproxyIp, hproxyPort, hhost,
    nullTermString_comm, uint32ToIP_get32, ntohs_get16 o (ByteOrder.put16_length .big port),
    ByteOrder.get16_put16]
  rfl

/-! ## The refinement -/

/-- The data plane `σ` implements the audit `a`. -/
structure Refines (o : ByteOrder) (ip : Ip4) (port : UInt16) (σ : State) (a : Audit) : Prop where
  proxy : σ.maps.proxyConfig = proxyValue o ip port
  hosts : ∀ key, (σ.maps.aiDestinations key).map
      (fun info => nullTermString (info.load .hostname)) = (a.hosts key).map (·.take 64)
  lines : σ.log ++ σ.ring.filterMap (readRedirectEvent o) = a.lines

theorem Refines.absent_iff {σ : State} {a : Audit} (h : Refines o ip port σ a)
    (key : List UInt8) : σ.maps.aiDestinations key = none ↔ a.hosts key = none := by
  have hkey := h.hosts key
  constructor
  · intro hnone
    rw [hnone] at hkey
    exact Option.map_eq_none_iff.mp hkey.symm
  · intro hnone
    rw [hnone] at hkey
    exact Option.map_eq_none_iff.mp hkey

theorem Refines.present {σ : State} {a : Audit} (h : Refines o ip port σ a) {key : List UInt8}
    {host : GoString} (hhost : a.hosts key = some host) :
    ∃ info, σ.maps.aiDestinations key = some info ∧
      nullTermString (info.load .hostname) = host.take 64 := by
  have hkey := h.hosts key
  rw [hhost] at hkey
  exact Option.map_eq_some_iff.mp hkey

/-- The sample a connect submits, as the reader will log it. -/
theorem Refines.submitted {σ : State} {a : Audit} (h : Refines o ip port σ a)
    (call : ConnectCall) :
    (((cgroupConnect4 o σ.maps call).submitted.map Record.bytes).toList).filterMap
        (readRedirectEvent o) =
      match a.hosts (o.put32 call.ctx.userIp4), call.slot with
      | some host, some _ => [redirectLine o ip port host call]
      | _, _ => [] := by
  cases hhost : a.hosts (o.put32 call.ctx.userIp4) with
  | none =>
      rw [cgroupConnect4_absent ((h.absent_iff _).mpr hhost)]
      rfl
  | some host =>
      obtain ⟨info, hinfo, hname⟩ := h.present hhost
      rw [cgroupConnect4_submitted hinfo]
      cases hslot : call.slot with
      | none => rfl
      | some slot =>
          have hread := @readRedirectEvent_event o ip port σ.maps call info host slot h.proxy hname
          simp only [Option.map_some, Option.toList_some, List.filterMap_cons, hread,
            List.filterMap_nil]

theorem Refines.step {svc : Service} {σ σ' : State} {a : Audit} {e : Event}
    (h : Refines o ip port σ a) (hnul : ∀ msg d now, e = .write msg d now → 0 ∉ d.hostname)
    (hstep : step o svc σ e = some σ') : Refines o ip port σ' (a.step o ip port e) := by
  have hproxy := (step_proxyConfig hstep).trans h.proxy
  cases e with
  | dnsMessage answer =>
      rw [step_dnsMessage hstep]
      exact ⟨h.proxy, h.hosts, h.lines⟩
  | write msg d now =>
      obtain ⟨rest, _, rfl⟩ := step_write hstep
      refine ⟨hproxy, ?_, h.lines⟩
      intro key
      show _ = (Function.update a.hosts d.ip4.bytes (some d.hostname) key).map _
      rw [← destKey_eq o]
      by_cases hkey : key = destKey o d.ip4
      · rw [hkey, writeDestination_self, Function.update_self]
        -- both cut the name to the field's length; a NUL in it would cut the stored one again
        show some (nullTermString (Record.load (L := aiDestInfoT) (destInfo o d now) .hostname)) = _
        rw [destInfo_hostname, nullTermString_hostnameField (hnul msg d now rfl)]
        rfl
      · rw [writeDestination_of_ne o σ.maps d now hkey, Function.update_of_ne hkey]
        exact h.hosts key
  | evict key' =>
      rw [step_evict hstep]
      refine ⟨h.proxy, ?_, h.lines⟩
      intro key
      show _ = (Function.update a.hosts key' none key).map _
      by_cases hkey : key = key'
      · rw [hkey, Maps.evict_self, Function.update_self]
        rfl
      · rw [Maps.evict_of_ne σ.maps hkey, Function.update_of_ne hkey]
        exact h.hosts key
  | connect call =>
      rw [step_connect hstep]
      have hsub := h.submitted call
      -- the line is due when the hook submits it; it stays in the ring until it is read
      have hlines : σ.log ++ (σ.ring ++ ((cgroupConnect4 o σ.maps call).submitted.map
          Record.bytes).toList).filterMap (readRedirectEvent o) =
          (a.step o ip port (.connect call)).lines := by
        rw [List.filterMap_append, ← List.append_assoc, h.lines, hsub]
        simp only [Audit.step]
        split
        · rfl
        · exact List.append_nil _
      refine ⟨h.proxy, ?_, hlines⟩
      have hhosts : (a.step o ip port (.connect call)).hosts = a.hosts := by
        simp only [Audit.step]
        split <;> rfl
      rw [hhosts]
      exact h.hosts
  | readRedirect =>
      obtain ⟨sample, rest, hring, rfl⟩ := step_readRedirect hstep
      refine ⟨h.proxy, h.hosts, ?_⟩
      have hlines := h.lines
      rw [hring] at hlines
      show σ.log ++ (readRedirectEvent o sample).toList ++ rest.filterMap (readRedirectEvent o) = _
      rw [List.append_assoc]
      refine Eq.trans (congrArg (σ.log ++ ·) ?_) hlines
      rw [List.filterMap_cons]
      cases readRedirectEvent o sample <;> rfl

/-! ## Whole runs -/

/-- What the log and the hook owe to the audit `a`: all that is delivered is
logged, all that is logged or in flight is the trail, a connect to a listed
address is rewritten whether or not it found a slot, and any other is left alone
without an event. -/
structure Faithful (o : ByteOrder) (ip : Ip4) (port : UInt16) (σ : State) (a : Audit) : Prop where
  delivered : σ.ring = [] → σ.log = a.lines
  inFlight : σ.log ++ σ.ring.filterMap (readRedirectEvent o) = a.lines
  rewritten : ∀ call host, a.hosts (o.put32 call.ctx.userIp4) = some host →
    Holds o (cgroupConnect4 o σ.maps call).ctx ip port
  leftAlone : ∀ call, a.hosts (o.put32 call.ctx.userIp4) = none →
    cgroupConnect4 o σ.maps call = ⟨1, call.ctx, none⟩

theorem Refines.faithful {σ : State} {a : Audit} (h : Refines o ip port σ a) :
    Faithful o ip port σ a := by
  refine ⟨?_, h.lines, ?_, ?_⟩
  · intro hring
    have hlines := h.lines
    rw [hring] at hlines
    rw [← hlines]
    exact (List.append_nil σ.log).symm
  · intro call host hhost
    obtain ⟨info, hinfo, _⟩ := h.present hhost
    exact redirected_holds h.proxy hinfo
  · intro call hnone
    exact cgroupConnect4_absent ((h.absent_iff _).mpr hnone)

/-- Maps whose destinations are those `writeDestination` stored for `dests`. -/
def withDestinations (o : ByteOrder) (maps : Maps)
    (dests : List UInt8 → Option (Destination × UInt64)) : Maps :=
  { maps with aiDestinations := fun key => (dests key).map fun p => destInfo o p.1 p.2 }

def hostnames (dests : List UInt8 → Option (Destination × UInt64)) :
    List UInt8 → Option GoString :=
  fun key => (dests key).map fun p => p.1.hostname

theorem refines_start {maps : Maps} {dests : List UInt8 → Option (Destination × UInt64)}
    (hproxy : maps.proxyConfig = proxyValue o ip port)
    (hdests : ∀ key d now, dests key = some (d, now) → 0 ∉ d.hostname) :
    Refines o ip port (start (withDestinations o maps dests)) ⟨hostnames dests, []⟩ := by
  refine ⟨hproxy, ?_, rfl⟩
  intro key
  show ((dests key).map fun p => (destInfo o p.1 p.2 : Record aiDestInfoT)).map _ =
    ((dests key).map _).map _
  cases hkey : dests key with
  | none => rfl
  | some p =>
      show some (nullTermString (Record.load (L := aiDestInfoT) (destInfo o p.1 p.2) .hostname)) =
        some (p.1.hostname.take 64)
      rw [destInfo_hostname, nullTermString_hostnameField (hdests key p.1 p.2 hkey)]

/-- What a successful `writeProxyConfig` leaves in the map. -/
theorem writeProxyConfig_written {plan : Plan} {id : Nat} {proxyIP : GoString} {n x : Node}
    {ob : Objects} (hwrite : (writeProxyConfig o plan id proxyIP port).run n = (.ok (), x))
    (hob : x.objs id = some ob) :
    ∃ ip, parseIP4 proxyIP = some ip ∧ ob.maps.proxyConfig = proxyValue o ip port := by
  unfold writeProxyConfig at hwrite
  cases hip : parseIP4 proxyIP with
  | none =>
      rw [hip] at hwrite
      cases hwrite
  | some ip =>
      rw [hip] at hwrite
      cases hplan : plan .proxyUpdate with
      | ok =>
          simp only [syscall_ok hplan, Prog.run_modify, Prod.mk.injEq] at hwrite
          obtain ⟨_, rfl⟩ := hwrite
          rw [modifyObjs_self] at hob
          obtain ⟨ob', _, rfl⟩ := Option.map_eq_some_iff.mp hob
          exact ⟨ip, rfl, rfl⟩
      | fail e =>
          simp only [syscall_fail hplan] at hwrite
          cases hwrite
      | kill =>
          simp only [syscall_kill hplan] at hwrite
          cases hwrite

/-- Over every run of the data plane, from arbitrary destinations and the entry
`writeProxyConfig` wrote, the log is the audit trail. -/
theorem audit_log_exact (o : ByteOrder) (svc : Service) (plan : Plan) (id : Nat) (cfg : Config)
    (n x : Node) (ob : Objects)
    (hwrite : (writeProxyConfig o plan id cfg.proxyIP cfg.proxyPort).run n = (.ok (), x))
    (hob : x.objs id = some ob) (dests : List UInt8 → Option (Destination × UInt64))
    (hdests : ∀ key d now, dests key = some (d, now) → 0 ∉ d.hostname) (es : List Event)
    (hes : ∀ msg d now, .write msg d now ∈ es → 0 ∉ d.hostname) (σ : State)
    (hrun : run (step o svc) (start (withDestinations o ob.maps dests)) es = some σ) :
    ∃ ip, parseIP4 cfg.proxyIP = some ip ∧
      Faithful o ip cfg.proxyPort σ (audit o ip cfg.proxyPort (hostnames dests) es) := by
  obtain ⟨ip, hip, hproxy⟩ := writeProxyConfig_written hwrite hob
  refine ⟨ip, hip, Refines.faithful ?_⟩
  -- the history invariant assumes NUL-free names only of the events so far
  have hinv := @run_history State Event (step o svc)
    (fun hist τ => (∀ msg d now, .write msg d now ∈ hist → 0 ∉ d.hostname) →
      Refines o ip cfg.proxyPort τ (audit o ip cfg.proxyPort (hostnames dests) hist))
    ?_ [] _ σ es (fun _ => refines_start hproxy hdests) hrun
  · exact hinv hes
  · intro hist τ e τ' h hstep hnul
    have hτ := h fun msg d now hmem => hnul msg d now (List.mem_append_left _ hmem)
    have hsnoc : audit o ip cfg.proxyPort (hostnames dests) (hist ++ [e]) =
        (audit o ip cfg.proxyPort (hostnames dests) hist).step o ip cfg.proxyPort e := by
      simp [audit]
    rw [hsnoc]
    refine hτ.step ?_ hstep
    rintro msg d now rfl
    exact hnul msg d now (by simp)

/-- A node with freshly loaded objects and the proxy entry written. -/
def proxyNode : Node :=
  (afterLoad Node.boot).modifyObjs 0 (·.setProxyConfig (proxyValue .little ⟨10, 100, 0, 50⟩ 8443))

/-- One destination for every address. -/
def openaiEverywhere : List UInt8 → Option (Destination × UInt64) :=
  fun _ => some (openaiDestination, 1)

/-- A redirect of `curl` to `api.openai.com`, as it stands in the ring. -/
theorem audit_log_exact_curl :
    ∃ ob σ, (writeProxyConfig .little (fun _ => .ok) 0 (ascii "10.100.0.50") 8443).run
        (afterLoad Node.boot) = (.ok (), proxyNode) ∧ proxyNode.objs 0 = some ob ∧
      run (step .little ⟨[ascii "openai.com"]⟩)
        (start (withDestinations .little ob.maps openaiEverywhere))
        [.connect (curlConnect .little openaiDestination.ip4 1 6)] = some σ ∧
      σ.log ++ σ.ring.filterMap (readRedirectEvent .little) =
        [redirectLine .little ⟨10, 100, 0, 50⟩ 8443 (ascii "api.openai.com")
          (curlConnect .little openaiDestination.ip4 1 6)] := by
  have hip : parseIP4 (ascii "10.100.0.50") = some ⟨10, 100, 0, 50⟩ := by decide
  have hwrite := @writeProxyConfig_ok .little (fun _ => .ok) ⟨10, 100, 0, 50⟩
    (ascii "10.100.0.50") 8443 rfl hip 0 (afterLoad Node.boot)
  have hob : proxyNode.objs 0 = some (Objects.setProxyConfig ⟨Maps.empty, true⟩
      (proxyValue .little ⟨10, 100, 0, 50⟩ 8443)) := by
    rw [proxyNode, modifyObjs_self]
    rfl
  refine ⟨_, _, hwrite, hob, rfl, ?_⟩
  obtain ⟨ip, hip', h⟩ := audit_log_exact .little ⟨[ascii "openai.com"]⟩ (fun _ => .ok) 0
    ⟨ascii "10.100.0.50", 8443, [], [], []⟩ (afterLoad Node.boot) proxyNode _ hwrite hob
    openaiEverywhere (by rintro key d now hd; cases hd; decide)
    [.connect (curlConnect .little openaiDestination.ip4 1 6)] (by simp) _ rfl
  obtain rfl := Option.some.inj (hip'.symm.trans hip)
  exact h.inFlight

end AiInterceptor.Theorems.AuditLog
