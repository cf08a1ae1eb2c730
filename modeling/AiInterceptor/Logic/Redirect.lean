import AiInterceptor.Agent.Manager
import AiInterceptor.Bpf.Connect

/-!
# Where a redirected connect goes

The agent writes the proxy address and port as native words, the hook copies
words into the context, and the kernel reads the context as network-order bytes.
The three agree on either byte order: a connect to a known destination leaves
with the configured address and port (`redirected_holds`), any other leaves as it
came.
-/

namespace AiInterceptor.Agent

open Lib Bpf Go

/-- The context asks for `ip` and `port`: its address bytes are those of `ip`, its
port is a zero-extended 16-bit word, and that word's bytes are `port` in network
byte order. -/
structure Holds (o : ByteOrder) (ctx : SockAddr) (ip : Ip4) (port : UInt16) : Prop where
  address : o.put32 ctx.userIp4 = ip.bytes
  narrow : ctx.userPort = ctx.userPort.toUInt16.toUInt32
  port : o.put16 ctx.userPort.toUInt16 = ByteOrder.big.put16 port

/-- An address and a port fix both words. -/
theorem Holds.unique {o : ByteOrder} {ctx ctx' : SockAddr} {ip : Ip4} {port : UInt16}
    (h : Holds o ctx ip port) (h' : Holds o ctx' ip port) :
    ctx.userIp4 = ctx'.userIp4 ∧ ctx.userPort = ctx'.userPort := by
  refine ⟨o.put32_injective (h.address.trans h'.address.symm), ?_⟩
  rw [h.narrow, h'.narrow, ← o.get16_put16 ctx.userPort.toUInt16, h.port, ← h'.port,
    o.get16_put16]

section ProxyEntry

variable (o : ByteOrder) (ip : Ip4) (port : UInt16)

theorem proxyValue_ip : Record.load (L := proxyConfigT) (proxyValue o ip port) .ip = ip.bytes := by
  have hload := @Record.load_storeAll _ goProxyConfigT (Record.zero goProxyConfigT)
    (proxyStores o ip port) (proxyStores_sized o ip port)
  rw [← o.put32_get32 ip.bytes_length]
  exact hload (by simp [proxyStores]) (by simp [proxyStores])

theorem proxyValue_port :
    Record.load (L := proxyConfigT) (proxyValue o ip port) .port = ByteOrder.big.put16 port := by
  have hload := @Record.load_storeAll _ goProxyConfigT (Record.zero goProxyConfigT)
    (proxyStores o ip port) (proxyStores_sized o ip port)
  rw [← put16_ntohs o port]
  exact hload (by simp [proxyStores]) (by simp [proxyStores])

/-- The entry is the unset one only for the address 0.0.0.0 with port 0. -/
theorem proxyValue_eq_zero_iff :
    (proxyValue o ip port : Record proxyConfigT) = Record.zero proxyConfigT ↔
      ip = ⟨0, 0, 0, 0⟩ ∧ port = 0 := by
  constructor
  · intro h
    have hip := proxyValue_ip o ip port
    have hport := proxyValue_port o ip port
    rw [h] at hip hport
    constructor
    · have hzero : (Record.zero proxyConfigT).load .ip = Ip4.bytes ⟨0, 0, 0, 0⟩ := by decide
      exact (Ip4.bytes_injective (hzero.symm.trans hip)).symm
    · rw [← ByteOrder.get16_put16 .big port, ← hport]
      decide
  · rintro ⟨rfl, rfl⟩
    cases o with
    | little => rfl
    | big => rfl

end ProxyEntry

section Connect

variable {o : ByteOrder} {maps : Maps} {ip : Ip4} {port : UInt16} {call : ConnectCall}

/-- Words loaded from the proxy entry, as the hook stores them in the context. -/
theorem redirected_holds {info : Record aiDestInfoT}
    (hproxy : maps.proxyConfig = proxyValue o ip port)
    (h : maps.aiDestinations (o.put32 call.ctx.userIp4) = some info) :
    Holds o (cgroupConnect4 o maps call).ctx ip port := by
  rw [cgroupConnect4_present h, hproxy, proxyValue_ip, proxyValue_port]
  have hnarrow : ((o.get16 (ByteOrder.big.put16 port)).toUInt32).toUInt16 =
      o.get16 (ByteOrder.big.put16 port) := UInt16.toUInt16_toUInt32 _
  refine ⟨?_, ?_, ?_⟩
  · exact o.put32_get32 ip.bytes_length
  · show (o.get16 (ByteOrder.big.put16 port)).toUInt32 = _
    rw [hnarrow]
  · show o.put16 ((o.get16 (ByteOrder.big.put16 port)).toUInt32).toUInt16 = _
    rw [hnarrow]
    exact o.put16_get16 (by simp)

/-- Either the context is left alone or it holds the proxy. -/
theorem cgroupConnect4_ctx (hproxy : maps.proxyConfig = proxyValue o ip port) :
    (cgroupConnect4 o maps call).ctx = call.ctx ∨
      Holds o (cgroupConnect4 o maps call).ctx ip port := by
  cases h : maps.aiDestinations (o.put32 call.ctx.userIp4) with
  | none =>
      rw [cgroupConnect4_absent h]
      exact Or.inl rfl
  | some info => exact Or.inr (redirected_holds hproxy h)

end Connect

/-! ## The submitted event -/

section Event

variable {o : ByteOrder} {maps : Maps} {call : ConnectCall} {info : Record aiDestInfoT}

/-- The record the hook submits when it is given `slot`. -/
def eventRecord (o : ByteOrder) (maps : Maps) (call : ConnectCall) (info : Record aiDestInfoT)
    (slot : Record redirectEventT) : Record redirectEventT :=
  slot.storeAll (eventStores o call info maps.proxyConfig)
    (eventStores_sized o call info maps.proxyConfig)

theorem cgroupConnect4_submitted
    (h : maps.aiDestinations (o.put32 call.ctx.userIp4) = some info) :
    (cgroupConnect4 o maps call).submitted = call.slot.map (eventRecord o maps call info) := by
  rw [cgroupConnect4_present h]
  rfl

/-- The stored fields read back. -/
theorem eventRecord_stored (slot : Record redirectEventT) :
    ∀ s ∈ eventStores o call info maps.proxyConfig,
      goRedirectEventT.load (eventRecord o maps call info slot).bytes s.1 = s.2 := by
  intro s hs
  rw [go_layouts_agree.2.2]
  exact Record.load_storeAll (eventStores_nodup o call info _) hs

/-- The others show what the slot held. -/
theorem eventRecord_stale (slot : Record redirectEventT) {f : RedirectField}
    (h : f ∉ (eventStores o call info maps.proxyConfig).map Prod.fst) :
    goRedirectEventT.load (eventRecord o maps call info slot).bytes f = slot.load f := by
  rw [go_layouts_agree.2.2]
  exact Layout.load_storeAll_of_notMem slot.length_eq (eventStores_sized o call info _) h

/-- The Go view of the record: three of its fields are those of the slot. -/
theorem ringbufCast_eventRecord (slot : Record redirectEventT) :
    ringbufCast o (eventRecord o maps call info slot).bytes =
      some
        { pid := call.task.tid
          tgid := (bpfGetCurrentPidTgid call.task >>> 32).toUInt32
          originalIp := call.ctx.userIp4
          originalPort := call.ctx.userPort.toUInt16
          proxyIp := o.get32 (maps.proxyConfig.load .ip)
          proxyPort := o.get16 (maps.proxyConfig.load .port)
          pad := slot.load .pad
          hostname := info.load .hostname
          command := bpfGetCurrentComm call.task
          commandlineLen := o.get32 (slot.load .commandlineLen)
          commandline := slot.load .commandline
          timestampNs := call.ktimeNs } := by
  have hlen : ¬ (eventRecord o maps call info slot).bytes.length < goRedirectEventT.total := by
    rw [Record.length_eq, go_layouts_agree.2.2]
    exact lt_irrefl _
  have hstored := @eventRecord_stored o maps call info slot
  simp only [eventStores, List.forall_mem_cons] at hstored
  obtain ⟨hpid, htgid, hip, hport, hproxyIp, hproxyPort, htime, hhost, hcommand, _⟩ := hstored
  have hstale := fun f => @eventRecord_stale o maps call info slot f
  have hpad := hstale .pad (by simp [eventStores])
  have hclLen := hstale .commandlineLen (by simp [eventStores])
  have hcl := hstale .commandline (by simp [eventStores])
  unfold ringbufCast
  rw [if_neg hlen]
  simp only [hpid, htgid, hip, hport, hproxyIp, hproxyPort, htime, hhost, hcommand, hpad, hclLen,
    hcl, ByteOrder.get32_put32, ByteOrder.get16_put16, ByteOrder.get64_put64,
    bpfGetCurrentPidTgid_low]

end Event

/-! ## Sample values -/

/-- An agent for the given proxy on `eth0`. -/
def eth0Config (proxyIP : GoString) (proxyPort : UInt16) : Config :=
  { proxyIP := proxyIP
    proxyPort := proxyPort
    networkInterface := ascii "eth0"
    cgroupPath := ascii "/sys/fs/cgroup"
    aiDomains := [ascii "openai.com"] }

/-- The proxy of the deployment manifests. -/
def agentConfig : Config := eth0Config (ascii "10.100.0.50") 8443

def openaiDestination : Destination := ⟨⟨104, 18, 6, 192⟩, ascii "api.openai.com", 300⟩

/-- A task named `curl`. -/
def curlTask : Task := ⟨4242, 4242, ascii "curl" ++ List.replicate 12 0, by decide, by decide⟩

/-- A connect by `curl` to port 443 of `ip`, on a socket of the given type and
protocol, with a free ring slot. -/
def curlConnect (o : ByteOrder) (ip : Ip4) (type protocol : UInt32) : ConnectCall :=
  { ctx := ⟨o.get32 ip.bytes, (ntohs o 443).toUInt32, type, protocol⟩
    task := curlTask
    ktimeNs := 0
    slot := some (Record.zero redirectEventT) }

end AiInterceptor.Agent
