import AiInterceptor.Bpf.Defs

/-!
# The cgroup hook (`cgroup_connect4`)

The hook looks the destination address up in `ai_destinations`, reports the
connect in a reserved `redirect_events` slot when one is to be had, and rewrites
the address and port of the context to the entry of `proxy_config`. Addresses
and ports stay in network byte order throughout: they are copied as words, never
swapped.
-/

namespace AiInterceptor.Bpf

open Lib

/-- The members of `struct bpf_sock_addr` that describe a connect. `user_ip4`
holds the four address bytes as they stand in memory, `user_port` the two port
bytes zero-extended; `type` and `protocol` are those of the socket. -/
structure SockAddr where
  userIp4 : UInt32
  userPort : UInt32
  type : UInt32
  protocol : UInt32
  deriving DecidableEq, Repr

/-- The calling task. `comm` is the kernel's NUL-terminated 16-byte name. -/
structure Task where
  tid : UInt32
  tgid : UInt32
  comm : List UInt8
  comm_length : comm.length = maxCommandSize
  comm_nul : 0 ∈ comm

/-- `bpf_get_current_pid_tgid`. -/
def bpfGetCurrentPidTgid (t : Task) : UInt64 :=
  (t.tgid.toUInt64 <<< 32) ||| t.tid.toUInt64

/-- The low word is the thread id; the hook stores it as the event's `pid`. -/
theorem bpfGetCurrentPidTgid_low (t : Task) : (bpfGetCurrentPidTgid t).toUInt32 = t.tid := by
  unfold bpfGetCurrentPidTgid
  apply UInt32.toBitVec_inj.mp
  ext i hi
  simp

/-- `bpf_get_current_comm`: the name up to its NUL, padded with NULs. -/
def bpfGetCurrentComm (t : Task) : List UInt8 :=
  let name := (t.comm.takeWhile (· ≠ 0)).take (maxCommandSize - 1)
  name ++ List.replicate (maxCommandSize - name.length) 0

/-- One call of the hook: the context, the task, `bpf_ktime_get_ns`, and what
`bpf_ringbuf_reserve` returns (`none` when the ring is full, otherwise a slot
with stale contents). -/
structure ConnectCall where
  ctx : SockAddr
  task : Task
  ktimeNs : UInt64
  slot : Option (Record redirectEventT)

structure ConnectResult where
  ret : Nat
  ctx : SockAddr
  submitted : Option (Record redirectEventT)
  deriving DecidableEq

/-- The stores into a reserved event, in program order. -/
def eventStores (o : ByteOrder) (call : ConnectCall) (info : Record aiDestInfoT)
    (proxy : Record proxyConfigT) : List (RedirectField × List UInt8) :=
  let pidTgid := bpfGetCurrentPidTgid call.task
  [(.pid, o.put32 pidTgid.toUInt32),
    (.tgid, o.put32 (pidTgid >>> 32).toUInt32),
    (.originalIp, o.put32 call.ctx.userIp4),
    (.originalPort, o.put16 call.ctx.userPort.toUInt16),
    (.proxyIp, o.put32 (o.get32 (proxy.load .ip))),
    (.proxyPort, o.put16 (o.get16 (proxy.load .port))),
    (.timestampNs, o.put64 call.ktimeNs),
    -- `bpf_probe_read_kernel` of the map value's own member
    (.hostname, info.load .hostname),
    (.command, bpfGetCurrentComm call.task)]

theorem bpfGetCurrentComm_length (t : Task) :
    (bpfGetCurrentComm t).length = maxCommandSize := by
  simp only [bpfGetCurrentComm, List.length_append, List.length_take, List.length_replicate]
  have : maxCommandSize = 16 := rfl
  omega

theorem eventStores_sized (o : ByteOrder) (call : ConnectCall) (info : Record aiDestInfoT)
    (proxy : Record proxyConfigT) : redirectEventT.Sized (eventStores o call info proxy) := by
  intro s hs
  simp only [eventStores, List.mem_cons, List.not_mem_nil, or_false] at hs
  rcases hs with rfl | rfl | rfl | rfl | rfl | rfl | rfl | rfl | rfl
  · exact o.put32_length _
  · exact o.put32_length _
  · exact o.put32_length _
  · exact o.put16_length _
  · exact o.put32_length _
  · exact o.put16_length _
  · exact o.put64_length _
  · exact Record.load_length info .hostname
  · exact bpfGetCurrentComm_length call.task

theorem eventStores_nodup (o : ByteOrder) (call : ConnectCall) (info : Record aiDestInfoT)
    (proxy : Record proxyConfigT) :
    ((eventStores o call info proxy).map Prod.fst).Nodup := by
  simp [eventStores]

/-- The cgroup hook. -/
def cgroupConnect4 (o : ByteOrder) (maps : Maps) (call : ConnectCall) : ConnectResult :=
  match maps.aiDestinations (o.put32 call.ctx.userIp4) with
  | none => ⟨1, call.ctx, none⟩
  | some info =>
      match maps.lookupProxyConfig o (o.put32 0) with
      | none => ⟨1, call.ctx, none⟩  -- fail open
      | some proxy =>
          let submitted := call.slot.map fun slot =>
            slot.storeAll (eventStores o call info proxy) (eventStores_sized o call info proxy)
          let ctx := { call.ctx with
            userIp4 := o.get32 (proxy.load .ip)
            userPort := (o.get16 (proxy.load .port)).toUInt32 }
          ⟨1, ctx, submitted⟩

/-! ## Outcomes -/

/-- Index 0 of the ARRAY map is never NULL, so the fail-open branch is dead. -/
theorem lookupProxyConfig_zero (o : ByteOrder) (m : Maps) :
    m.lookupProxyConfig o (o.put32 0) = some m.proxyConfig := by
  rw [Maps.lookupProxyConfig, ByteOrder.get32_put32, if_pos (by decide)]

theorem cgroupConnect4_absent {o : ByteOrder} {maps : Maps} {call : ConnectCall}
    (h : maps.aiDestinations (o.put32 call.ctx.userIp4) = none) :
    cgroupConnect4 o maps call = ⟨1, call.ctx, none⟩ := by
  unfold cgroupConnect4
  rw [h]

theorem cgroupConnect4_present {o : ByteOrder} {maps : Maps} {call : ConnectCall}
    {info : Record aiDestInfoT}
    (h : maps.aiDestinations (o.put32 call.ctx.userIp4) = some info) :
    cgroupConnect4 o maps call =
      ⟨1, { call.ctx with
            userIp4 := o.get32 (maps.proxyConfig.load .ip)
            userPort := (o.get16 (maps.proxyConfig.load .port)).toUInt32 },
        call.slot.map fun slot =>
          slot.storeAll (eventStores o call info maps.proxyConfig)
            (eventStores_sized o call info maps.proxyConfig)⟩ := by
  unfold cgroupConnect4
  rw [h, lookupProxyConfig_zero]

theorem cgroupConnect4_ret (o : ByteOrder) (maps : Maps) (call : ConnectCall) :
    (cgroupConnect4 o maps call).ret = 1 := by
  cases h : maps.aiDestinations (o.put32 call.ctx.userIp4) with
  | none => rw [cgroupConnect4_absent h]
  | some info => rw [cgroupConnect4_present h]

end AiInterceptor.Bpf
