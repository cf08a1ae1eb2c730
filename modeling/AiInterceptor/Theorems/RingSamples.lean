import AiInterceptor.Logic.Redirect
import AiInterceptor.Agent.Reader

/-!
# What user space makes of a ring-buffer sample

A sample is raw memory with a size field and fields the kernel side may or may
not have stored. Three things can go wrong in between: the bound computed from
the size field wraps, a field that was never stored shows what an earlier record
left in the slot, and of two identifiers the reader logs the wrong one. Each
result says exactly when it does not.
-/

namespace AiInterceptor.Theorems.RingSamples

open Lib Bpf Go Agent

/-! ## The bound of a DNS sample -/

/-- The loop body skips the sample or slices exactly `msg_size` bytes that are
there. -/
def InRange (o : ByteOrder) (raw : List UInt8) : Prop :=
  readDnsEvent o raw = .skip ∨
    (8 + (sampleSize o raw).toNat ≤ raw.length ∧
      readDnsEvent o raw = .process (readAt raw 8 (sampleSize o raw).toNat))

/-- A wrapped bound passes the upper check and the slice expression panics. -/
theorem readDnsEvent_panics {o : ByteOrder} {raw : List UInt8} (hlong : 8 < raw.length)
    (hsize : 2 ^ 63 ≤ 8 + (sampleSize o raw).toNat) : readDnsEvent o raw = .panic := by
  have hend := sampleEnd_wrapped hsize
  have hne : sampleSize o raw ≠ 0 := by
    intro h0
    rw [h0] at hsize
    exact absurd hsize (by decide)
  rw [readDnsEvent_long (by omega), if_neg (by rintro (h | h) <;> [exact hne h; omega]),
    if_pos hend]

theorem InRange.ne_panic {o : ByteOrder} {raw : List UInt8} (h : InRange o raw) :
    readDnsEvent o raw ≠ .panic := by
  rcases h with h | ⟨_, h⟩
  · rw [h]
    simp
  · rw [h]
    simp

/-- **Samples stay in range** exactly when they are too short to be sliced or the
size field is below `2 ^ 63 - 8`. -/
theorem sample_in_range_iff (o : ByteOrder) (raw : List UInt8) :
    InRange o raw ↔ raw.length ≤ 8 ∨ (sampleSize o raw).toNat < 2 ^ 63 - 8 := by
  constructor
  · intro h
    by_contra hcon
    obtain ⟨hlong, hsize⟩ := not_or.mp hcon
    exact h.ne_panic (readDnsEvent_panics (by omega) (by omega))
  · intro h
    by_cases hshort : raw.length ≤ 8
    · exact .inl (readDnsEvent_short hshort)
    · have hend := @sampleEnd_exact o raw (by omega)
      by_cases hskip : sampleSize o raw = 0 ∨ sampleEnd o raw > raw.length
      · refine .inl ?_
        rw [readDnsEvent_long hshort, if_pos hskip]
      · obtain ⟨hne, hfit⟩ := not_or.mp hskip
        have hpos : 0 < (sampleSize o raw).toNat := by
          refine Nat.pos_of_ne_zero fun h0 => hne (UInt64.toNat_inj.mp h0)
        exact .inr ⟨by omega, readDnsEvent_process hpos (by omega) (by omega)⟩

/-- A nine-byte sample with all size bits set. -/
def wrappedSample : List UInt8 := List.replicate 8 255 ++ [0]

theorem wrapped_sample_panics :
    readDnsEvent .little wrappedSample = .panic ∧ ¬ InRange .little wrappedSample := by
  have hpanic : readDnsEvent .little wrappedSample = .panic :=
    readDnsEvent_panics (by decide) (by decide)
  exact ⟨hpanic, fun h => h.ne_panic hpanic⟩

/-! ## Fields of a redirect event -/

/-- What user space decodes of a connect, if the hook submits it into `slot`. -/
def decodedEvent (o : ByteOrder) (maps : Maps) (call : ConnectCall)
    (slot : Record redirectEventT) : Option RedirectEvent :=
  (cgroupConnect4 o maps { call with slot := some slot }).submitted.bind fun r =>
    ringbufCast o r.bytes

/-- The fields the hook never stores. -/
def unstored : List RedirectField := [.pad, .commandlineLen, .commandline]

/-- A known destination: the three fields decide. -/
theorem decodedEvent_known {o : ByteOrder} {maps : Maps} {call : ConnectCall}
    {info : Record aiDestInfoT} (h : maps.aiDestinations (o.put32 call.ctx.userIp4) = some info)
    (slot slot' : Record redirectEventT) :
    decodedEvent o maps call slot = decodedEvent o maps call slot' ↔
      ∀ f ∈ unstored, slot.load f = slot'.load f := by
  have hsome : ∀ s, decodedEvent o maps call s =
      ringbufCast o (eventRecord o maps { call with slot := some s } info s).bytes := by
    intro s
    rw [decodedEvent, @cgroupConnect4_submitted o maps { call with slot := some s } info h,
      Option.map_some, Option.bind_some]
  have hlen : o.get32 (slot.load .commandlineLen) = o.get32 (slot'.load .commandlineLen) ↔
      slot.load .commandlineLen = slot'.load .commandlineLen := by
    refine ⟨fun heq => ?_, congrArg _⟩
    rw [← o.put32_get32 (slot.load_length .commandlineLen), heq,
      o.put32_get32 (slot'.load_length .commandlineLen)]
  rw [hsome, hsome, ringbufCast_eventRecord, ringbufCast_eventRecord]
  simp [unstored, hlen]

/-- **Stale memory.** For every connect and every two prior contents of the slot,
the decoded events are the same exactly when the destination is unknown (and
nothing is submitted) or the slots agree on the fields the hook never stores. -/
theorem decoded_independent_iff (o : ByteOrder) (maps : Maps) (call : ConnectCall)
    (slot slot' : Record redirectEventT) :
    decodedEvent o maps call slot = decodedEvent o maps call slot' ↔
      maps.aiDestinations (o.put32 call.ctx.userIp4) = none ∨
        ∀ f ∈ unstored, slot.load f = slot'.load f := by
  cases hinfo : maps.aiDestinations (o.put32 call.ctx.userIp4) with
  | none =>
      have hnone : ∀ s, decodedEvent o maps call s = none := by
        intro s
        rw [decodedEvent, @cgroupConnect4_absent o maps { call with slot := some s } hinfo]
        rfl
      rw [hnone, hnone]
      simp
  | some info =>
      rw [decodedEvent_known hinfo]
      simp

/-- Maps that know every destination. -/
def knownMaps : Maps := ⟨fun _ => some (Record.zero aiDestInfoT), Record.zero proxyConfigT⟩

/-- A slot with the bytes of some earlier record in it. -/
def usedSlot : Record redirectEventT :=
  ⟨List.replicate redirectEventT.total 0x41, List.length_replicate⟩

/-- The padding of an event shows what the slot held before. -/
theorem stale_slot_visible :
    decodedEvent .little knownMaps (curlConnect .little openaiDestination.ip4 1 6)
        (Record.zero redirectEventT) ≠
      decodedEvent .little knownMaps (curlConnect .little openaiDestination.ip4 1 6) usedSlot := by
  intro h
  have hpad := (decodedEvent_known rfl _ _).mp h .pad (by simp [unstored])
  exact absurd hpad (by decide)

/-! ## Process attribution -/

/-- The line logged for a connect, if it is rewritten and finds a slot. -/
def loggedLine (o : ByteOrder) (maps : Maps) (call : ConnectCall) : Option RedirectLine :=
  (cgroupConnect4 o maps call).submitted.bind fun r => readRedirectEvent o r.bytes

/-- The logged pid is the low word of `bpf_get_current_pid_tgid`, the thread. -/
theorem loggedLine_pid {o : ByteOrder} {maps : Maps} {call : ConnectCall}
    {info : Record aiDestInfoT} {slot : Record redirectEventT}
    (h : maps.aiDestinations (o.put32 call.ctx.userIp4) = some info)
    (hslot : call.slot = some slot) :
    ∃ line, loggedLine o maps call = some line ∧ line.pid = call.task.tid := by
  have hline : loggedLine o maps call =
      readRedirectEvent o (eventRecord o maps call info slot).bytes := by
    rw [loggedLine, cgroupConnect4_submitted h, hslot, Option.map_some, Option.bind_some]
  rw [hline, readRedirectEvent, ringbufCast_eventRecord]
  exact ⟨_, rfl, rfl⟩

/-- Two lines name the processes of their connects. -/
structure Attributed (line line' : RedirectLine) (task task' : Task) : Prop where
  same : line.pid = line'.pid ↔ task.tgid = task'.tgid
  left : line.pid = task.tgid
  right : line'.pid = task'.tgid

/-- **Process attribution.** Every two rewritten connects that find a slot are
logged, and their lines name the processes exactly when both connecting threads
are the main threads of theirs. -/
theorem attribution_iff (o : ByteOrder) (maps maps' : Maps) (call call' : ConnectCall)
    (info info' : Record aiDestInfoT) (slot slot' : Record redirectEventT)
    (h : maps.aiDestinations (o.put32 call.ctx.userIp4) = some info)
    (h' : maps'.aiDestinations (o.put32 call'.ctx.userIp4) = some info')
    (hslot : call.slot = some slot) (hslot' : call'.slot = some slot') :
    ∃ line line', loggedLine o maps call = some line ∧ loggedLine o maps' call' = some line' ∧
      (Attributed line line' call.task call'.task ↔
        call.task.tid = call.task.tgid ∧ call'.task.tid = call'.task.tgid) := by
  obtain ⟨line, hline, hpid⟩ := loggedLine_pid h hslot
  obtain ⟨line', hline', hpid'⟩ := loggedLine_pid h' hslot'
  refine ⟨line, line', hline, hline', ?_⟩
  constructor
  · intro hattr
    exact ⟨hpid.symm.trans hattr.left, hpid'.symm.trans hattr.right⟩
  · rintro ⟨hmain, hmain'⟩
    have hleft : line.pid = call.task.tgid := hpid.trans hmain
    have hright : line'.pid = call'.task.tgid := hpid'.trans hmain'
    exact ⟨by rw [hleft, hright], hleft, hright⟩

/-- A connect by a second thread of the `curl` process. -/
def workerConnect : ConnectCall :=
  { curlConnect .little openaiDestination.ip4 1 6 with
    task := { curlTask with tid := 4243 } }

theorem attribution_iff_curl :
    ∃ line line', loggedLine .little knownMaps (curlConnect .little openaiDestination.ip4 1 6) =
        some line ∧ loggedLine .little knownMaps workerConnect = some line' ∧
      (Attributed line line' curlTask workerConnect.task ↔
        curlTask.tid = curlTask.tgid ∧ workerConnect.task.tid = workerConnect.task.tgid) :=
  attribution_iff .little knownMaps knownMaps (curlConnect .little openaiDestination.ip4 1 6)
    workerConnect _ _ _ _ rfl rfl rfl rfl

/-- Two threads of one process are logged under two pids. -/
theorem worker_thread_misattributed :
    ∃ line line', loggedLine .little knownMaps (curlConnect .little openaiDestination.ip4 1 6) =
        some line ∧ loggedLine .little knownMaps workerConnect = some line' ∧
      curlTask.tgid = workerConnect.task.tgid ∧ line.pid ≠ line'.pid ∧
      line'.pid ≠ workerConnect.task.tgid := by
  obtain ⟨line, hline, hpid⟩ :=
    @loggedLine_pid .little knownMaps (curlConnect .little openaiDestination.ip4 1 6) _ _ rfl rfl
  obtain ⟨line', hline', hpid'⟩ := @loggedLine_pid .little knownMaps workerConnect _ _ rfl rfl
  refine ⟨line, line', hline, hline', rfl, ?_, ?_⟩
  · rw [hpid, hpid']
    decide
  · rw [hpid']
    decide

end AiInterceptor.Theorems.RingSamples
