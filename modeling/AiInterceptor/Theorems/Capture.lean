import AiInterceptor.Agent.Pipeline
import AiInterceptor.Lib.Simulation
import AiInterceptor.Lib.Table
import AiInterceptor.Theorems.FrameSafety
import AiInterceptor.Theorems.Interception

/-!
# DNS answers on their way to the map

Between the interface and `ai_destinations` an answer is a frame, a ring sample, a
message and a list of calls. `InOrder` is the invariant of that way: at any point of
any run the messages that have arrived are those handed to the service followed by
those in the ring, and the calls of the ones handed over are those made followed by
those left. Nothing is lost, made twice or overtaken, and no sample the hook has
filled makes the reader panic (`capture_in_order`). So the map is the replay of the
answers in the order of their arrival (`destinations_by_arrival`), and which connects
are redirected can be read off the frames (`frame_to_redirect`).
-/

namespace AiInterceptor.Theorems.Capture

open Lib Bpf Go Agent Agent.Pipeline FrameSafety FrameRoundTrip

/-! ## Messages in frames and in samples -/

open Classical in
/-- The message the hook takes a frame to hold. -/
noncomputable def messageIn (skb : Skb) : Option (List UInt8) :=
  if h : ∃ p n, Accepted skb.bytes p n then
    some (readAt skb.bytes h.choose h.choose_spec.choose)
  else none

theorem messageIn_accepted {skb : Skb} {p n : Nat} (h : Accepted skb.bytes p n) :
    messageIn skb = some (readAt skb.bytes p n) := by
  have hex : ∃ p n, Accepted skb.bytes p n := ⟨p, n, h⟩
  obtain ⟨hp, hn⟩ := hex.choose_spec.choose_spec.toReserved.unique h.toReserved
  rw [messageIn, dif_pos hex]
  exact congrArg some (congrArg₂ (readAt skb.bytes) hp hn)

theorem messageIn_eq_some {skb : Skb} {msg : List UInt8} :
    messageIn skb = some msg ↔ ∃ p n, Accepted skb.bytes p n ∧ msg = readAt skb.bytes p n := by
  constructor
  · intro h
    by_cases hex : ∃ p n, Accepted skb.bytes p n
    · obtain ⟨p, n, hacc⟩ := hex
      rw [messageIn_accepted hacc] at h
      exact ⟨p, n, hacc, (Option.some.inj h).symm⟩
    · rw [messageIn, dif_neg hex] at h
      cases h
  · rintro ⟨p, n, hacc, rfl⟩
    exact messageIn_accepted hacc

/-- The record of an accepted frame reads back as its message. -/
theorem readDnsEvent_record {frame : List UInt8} {p n : Nat} (h : Accepted frame p n)
    (o : ByteOrder) (slot : Record dnsEventT) :
    readDnsEvent o (record o slot frame p n) = .process (readAt frame p n) := by
  have hmin := h.min
  have hmax := h.max
  have hlen : (readAt frame p n).length = n := readAt_length h.fits
  have hlenNat : (UInt32.ofNat n).toNat = (readAt frame p n).length := by
    rw [UInt32.toNat_ofNat', hlen]
    omega
  exact readDnsEvent_filledSlot (by omega) (by omega) hlenNat

/-- The samples a frame leaves in the ring are read as the message it holds. -/
theorem submitted_messages (o : ByteOrder) (skb : Skb) (slot : Option (Record dnsEventT)) :
    (submitted (tcDnsObserver o skb slot)).map (readDnsEvent o) =
      (slot.bind fun _ => messageIn skb).toList.map .process := by
  have hnone : (∀ p n, ¬ Accepted skb.bytes p n) → messageIn skb = none := by
    intro h
    rw [Option.eq_none_iff_forall_ne_some]
    intro msg hmsg
    obtain ⟨p, n, hacc, _⟩ := messageIn_eq_some.mp hmsg
    exact h p n hacc
  rcases tcDnsObserver_cases o skb slot with ⟨hres, heq⟩ | ⟨p, n, hres, hrest⟩
  · rw [heq, hnone fun p n hacc => hres p n hacc.toReserved]
    cases slot <;> rfl
  · rcases hrest with ⟨rfl, heq⟩ | ⟨s, rfl, ⟨hresp, heq⟩ | ⟨hresp, heq⟩⟩
    · rw [heq]
      rfl
    · have hacc : Accepted skb.bytes p n := ⟨hres, hresp⟩
      rw [heq, Option.bind_some, messageIn_accepted hacc]
      show [readDnsEvent o (record o s skb.bytes p n)] = [.process (readAt skb.bytes p n)]
      rw [readDnsEvent_record hacc]
    · have hother : ∀ p' n', ¬ Accepted skb.bytes p' n' := by
        intro p' n' hacc
        obtain ⟨rfl, rfl⟩ := hres.unique hacc.toReserved
        exact hresp hacc.response
      rw [heq, Option.bind_some, hnone hother]
      rfl

/-! ## Observations -/

/-- A message arrives with a frame for which there was room in the ring. -/
noncomputable def arrival : Event → List (List UInt8)
  | .frame skb slot => (slot.bind fun _ => messageIn skb).toList
  | _ => []

/-- What the reader hands on of a sample. -/
def messageOf (o : ByteOrder) (sample : List UInt8) : Option (List UInt8) :=
  match readDnsEvent o sample with
  | .process msg => some msg
  | _ => none

/-- A message is handed to `ProcessDNSEvent`. -/
def handed (o : ByteOrder) (σ : State) : Event → List (List UInt8)
  | .readDns => (σ.dnsRing.head?.bind (messageOf o)).toList
  | _ => []

/-- A call of `writeDestination` is made. -/
def made (σ : State) : Event → List Destination
  | .write _ => σ.calls.head?.toList
  | _ => []

section Run

variable {o : ByteOrder} {svc : Service} {ε : Type} {unpack : List UInt8 → Except ε (List RR)}
  {maps : Maps} {hist es : List Event} {σ σ' : State} {e : Event}

/-- Everything on its way, in order. -/
structure InOrder (o : ByteOrder) (svc : Service) (unpack : List UInt8 → Except ε (List RR))
    (maps : Maps) (hist : List Event) (σ : State) (queued : List (List UInt8)) : Prop where
  alive : σ.panicked = false
  ring : σ.dnsRing.map (readDnsEvent o) = queued.map .process
  messages : hist.flatMap arrival =
    trace (step o svc unpack) (handed o) (start maps) hist ++ queued
  calls : trace (step o svc unpack) made (start maps) hist ++ σ.calls =
    (trace (step o svc unpack) (handed o) (start maps) hist).flatMap (callsFor svc unpack)

/-- A sample at the head of the ring is the oldest message that is queued. -/
theorem InOrder.next {queued : List (List UInt8)} {sample : List UInt8}
    {rest : List (List UInt8)} (h : InOrder o svc unpack maps hist σ queued)
    (hring : σ.dnsRing = sample :: rest) :
    ∃ msg queued', queued = msg :: queued' ∧ readDnsEvent o sample = .process msg ∧
      rest.map (readDnsEvent o) = queued'.map .process := by
  have hqueue := h.ring
  rw [hring, List.map_cons] at hqueue
  obtain ⟨msg, queued', rfl, hmsg, hrest⟩ := List.map_eq_cons_iff.mp hqueue.symm
  exact ⟨msg, queued', rfl, hmsg.symm, hrest.symm⟩

/-- What a step other than the three on the way shows, and leaves. -/
theorem InOrder.aside {queued : List (List UInt8)} (h : InOrder o svc unpack maps hist σ queued)
    (hrun : run (step o svc unpack) (start maps) hist = some σ)
    (hpanic : σ'.panicked = σ.panicked) (hring : σ'.dnsRing = σ.dnsRing)
    (hcalls : σ'.calls = σ.calls)
    (harrival : arrival e = []) (hhanded : handed o σ e = []) (hmade : made σ e = []) :
    InOrder o svc unpack maps (hist ++ [e]) σ' queued := by
  refine ⟨hpanic.trans h.alive, ?_, ?_, ?_⟩
  · rw [hring, h.ring]
  · rw [trace_snoc _ hrun, List.flatMap_append, List.flatMap_singleton, harrival, hhanded,
      List.append_nil, List.append_nil, h.messages]
  · rw [trace_snoc _ hrun, trace_snoc _ hrun, hmade, hhanded, hcalls, List.append_nil,
      List.append_nil, h.calls]

theorem InOrder.step {queued : List (List UInt8)} (h : InOrder o svc unpack maps hist σ queued)
    (hrun : run (step o svc unpack) (start maps) hist = some σ)
    (hstep : step o svc unpack σ e = some σ') :
    ∃ queued', InOrder o svc unpack maps (hist ++ [e]) σ' queued' := by
  cases e with
  | frame skb slot =>
      obtain rfl := step_frame hstep
      refine ⟨queued ++ (slot.bind fun _ => messageIn skb).toList, h.alive, ?_, ?_, ?_⟩
      · show (σ.dnsRing ++ submitted (tcDnsObserver o skb slot)).map (readDnsEvent o) = _
        rw [List.map_append, h.ring, submitted_messages, List.map_append]
      · rw [trace_snoc _ hrun, List.flatMap_append, List.flatMap_singleton, h.messages]
        show _ ++ queued ++ arrival (.frame skb slot) = _ ++ [] ++ _
        rw [List.append_nil, List.append_assoc]
        rfl
      · rw [trace_snoc _ hrun, trace_snoc _ hrun]
        show _ ++ [] ++ σ.calls = (_ ++ []).flatMap _
        rw [List.append_nil, List.append_nil, h.calls]
  | readDns =>
      obtain ⟨sample, rest, hpanic, hcalls, hring, rfl⟩ := step_readDns hstep
      obtain ⟨msg, queued', rfl, hread, hrest⟩ := h.next hring
      have htake : takeSample o svc unpack { σ with dnsRing := rest } sample =
          { σ with dnsRing := rest, calls := callsFor svc unpack msg } := by
        rw [takeSample, hread]
      have hhanded : handed o σ .readDns = [msg] := by
        rw [handed, hring, List.head?_cons, Option.bind_some, messageOf, hread]
        rfl
      rw [htake]
      refine ⟨queued', hpanic, hrest, ?_, ?_⟩
      · rw [trace_snoc _ hrun, List.flatMap_append, List.flatMap_singleton, hhanded, h.messages]
        show _ ++ msg :: queued' ++ [] = _
        rw [List.append_nil, List.append_assoc, List.singleton_append]
      · -- the message before has made all its calls
        have hdone := h.calls
        rw [hcalls, List.append_nil] at hdone
        rw [trace_snoc _ hrun, trace_snoc _ hrun, hhanded, hdone]
        show _ ++ [] ++ callsFor svc unpack msg = _
        rw [List.append_nil, List.flatMap_append, List.flatMap_singleton]
  | write now =>
      obtain ⟨d, rest, hpanic, hcalls, rfl⟩ := step_write hstep
      refine ⟨queued, hpanic, h.ring, ?_, ?_⟩
      · rw [trace_snoc _ hrun, List.flatMap_append, List.flatMap_singleton]
        show _ ++ [] = _ ++ [] ++ queued
        rw [List.append_nil, List.append_nil, h.messages]
      · rw [trace_snoc _ hrun, trace_snoc _ hrun]
        show _ ++ σ.calls.head?.toList ++ rest = (_ ++ []).flatMap _
        rw [List.append_nil, ← h.calls, hcalls, List.append_assoc]
        rfl
  | evict key =>
      obtain rfl := step_evict hstep
      exact ⟨queued, h.aside hrun rfl rfl rfl rfl rfl rfl⟩
  | connect call =>
      obtain rfl := step_connect hstep
      exact ⟨queued, h.aside hrun rfl rfl rfl rfl rfl rfl⟩
  | readRedirect =>
      obtain ⟨sample, rest, _, _, rfl⟩ := step_readRedirect hstep
      exact ⟨queued, h.aside hrun rfl rfl rfl rfl rfl rfl⟩

theorem inOrder_run (hrun : run (step o svc unpack) (start maps) es = some σ) :
    ∃ queued, InOrder o svc unpack maps es σ queued := by
  refine run_from (P := fun hist τ => ∃ queued, InOrder o svc unpack maps hist τ queued) ?_ ?_ hrun
  · exact ⟨[], rfl, rfl, rfl, rfl⟩
  · rintro hist τ e τ' hhist ⟨queued, h⟩ hstep
    exact h.step hhist hstep

/-! ## The map -/

/-- An update of `ai_destinations`. -/
inductive MapOp
  | write (d : Destination)
  | evict (key : List UInt8)
  deriving DecidableEq, Repr

def MapOp.key : MapOp → List UInt8
  | .write d => d.ip4.bytes
  | .evict key => key

def MapOp.hostname : MapOp → Option GoString
  | .write d => some d.hostname
  | .evict _ => none

def MapOp.written : MapOp → Option Destination
  | .write d => some d
  | .evict _ => none

def MapOp.evicted : MapOp → Option (List UInt8)
  | .write _ => none
  | .evict key => some key

/-- An entry is evicted. -/
def eviction : Event → List (List UInt8)
  | .evict key => [key]
  | _ => []

/-- The map is updated. -/
def mapOps (σ : State) : Event → List MapOp
  | .write _ => (σ.calls.head?.map .write).toList
  | .evict key => [.evict key]
  | _ => []

/-- The hostname fields are those of the table of updates. -/
def Replayed (σ : State) (ops : List MapOp) : Prop :=
  ∀ key, (σ.maps.aiDestinations key).map (fun info => info.load .hostname) =
    (tableOf MapOp.key MapOp.hostname ops key).map hostnameField

theorem Replayed.step {ops : List MapOp} (h : Replayed σ ops)
    (hstep : step o svc unpack σ e = some σ') : Replayed σ' (ops ++ mapOps σ e) := by
  cases e with
  | frame skb slot =>
      obtain rfl := step_frame hstep
      show Replayed _ (ops ++ [])
      rw [List.append_nil]
      exact h
  | readDns =>
      obtain ⟨sample, rest, _, _, _, rfl⟩ := step_readDns hstep
      have hmaps : (takeSample o svc unpack { σ with dnsRing := rest } sample).maps =
          σ.maps := by
        rw [takeSample]
        split <;> rfl
      show Replayed _ (ops ++ [])
      rw [List.append_nil]
      intro key
      rw [hmaps]
      exact h key
  | write now =>
      obtain ⟨d, rest, _, hcalls, rfl⟩ := step_write hstep
      have hops : mapOps σ (.write now) = [.write d] := by
        rw [mapOps, hcalls]
        rfl
      rw [hops]
      intro key
      rw [tableOf_snoc]
      show _ = (Function.update (tableOf MapOp.key MapOp.hostname ops) d.ip4.bytes
        (some d.hostname) key).map _
      rw [← destKey_eq o]
      by_cases hkey : key = destKey o d.ip4
      · rw [hkey, writeDestination_self, Function.update_self]
        exact congrArg some (destInfo_hostname o d now)
      · rw [writeDestination_of_ne o σ.maps d now hkey, Function.update_of_ne hkey]
        exact h key
  | evict key' =>
      obtain rfl := step_evict hstep
      intro key
      rw [mapOps, tableOf_snoc]
      show _ = (Function.update (tableOf MapOp.key MapOp.hostname ops) key' none key).map _
      by_cases hkey : key = key'
      · rw [hkey, Maps.evict_self, Function.update_self]
        rfl
      · rw [Maps.evict_of_ne σ.maps hkey, Function.update_of_ne hkey]
        exact h key
  | connect call =>
      obtain rfl := step_connect hstep
      show Replayed _ (ops ++ [])
      rw [List.append_nil]
      exact h
  | readRedirect =>
      obtain ⟨sample, rest, _, _, rfl⟩ := step_readRedirect hstep
      show Replayed _ (ops ++ [])
      rw [List.append_nil]
      exact h

theorem replayed_run (hempty : ∀ key, maps.aiDestinations key = none)
    (hrun : run (step o svc unpack) (start maps) es = some σ) :
    Replayed σ (trace (step o svc unpack) mapOps (start maps) es) := by
  refine run_from (P := fun hist τ =>
    Replayed τ (trace (step o svc unpack) mapOps (start maps) hist)) ?_ ?_ hrun
  · intro key
    have hnone : (start maps).maps.aiDestinations key = none := hempty key
    rw [hnone]
    rfl
  · intro hist τ e τ' hhist h hstep
    rw [trace_snoc _ hhist]
    exact h.step hstep

/-- The calls made are the updates that write. -/
theorem made_eq_written :
    trace (step o svc unpack) made σ es =
      (trace (step o svc unpack) mapOps σ es).filterMap MapOp.written := by
  rw [filterMap_trace]
  congr 1
  funext τ e
  cases e with
  | write now =>
      rw [made, mapOps]
      cases τ.calls <;> rfl
  | frame skb slot | readDns | evict key | connect call | readRedirect => rfl

theorem eviction_eq_evicted (hrun : run (step o svc unpack) (start maps) es = some σ) :
    es.flatMap eviction =
      (trace (step o svc unpack) mapOps (start maps) es).filterMap MapOp.evicted := by
  rw [filterMap_trace, ← trace_events _ hrun]
  congr 1
  funext τ e
  cases e with
  | write now =>
      rw [mapOps]
      cases τ.calls <;> rfl
  | frame skb slot | readDns | evict key | connect call | readRedirect => rfl

end Run

/-! ## One answer -/

section Sample

variable {o : ByteOrder} {svc : Service} {ε : Type} {unpack : List UInt8 → Except ε (List RR)}

/-- A frame with an answer, read. -/
theorem answer_read {skb : Skb} {p n : Nat} {answer : List RR}
    (hacc : Accepted skb.bytes p n) (hun : unpack (readAt skb.bytes p n) = .ok answer)
    (maps : Maps) (slot : Record dnsEventT) :
    run (step o svc unpack) (start maps) [.frame skb (some slot), .readDns] =
      some ⟨maps, [], svc.processAnswer answer, [], [], false⟩ := by
  obtain ⟨sample, hsample, hread⟩ : ∃ sample,
      submitted (tcDnsObserver o skb (some slot)) = [sample] ∧
        readDnsEvent o sample = .process (readAt skb.bytes p n) := by
    have hmsgs := submitted_messages o skb (some slot)
    rw [Option.bind_some, messageIn_accepted hacc] at hmsgs
    obtain ⟨sample, rest, hring, hread, hrest⟩ := List.map_eq_cons_iff.mp hmsgs
    rw [List.map_eq_nil_iff.mp hrest] at hring
    exact ⟨sample, hring, hread⟩
  have hcalls : callsFor svc unpack (readAt skb.bytes p n) = svc.processAnswer answer := by
    rw [callsFor, Service.processDNSEvent, hun]
    rfl
  simp only [run, step, start, hsample, List.nil_append, Option.bind_some, takeSample, hread,
    hcalls]

/-- A frame with one answer for a service, read and written. -/
theorem answer_run {skb : Skb} {p n : Nat} {answer : List RR} {d : Destination}
    (hacc : Accepted skb.bytes p n) (hun : unpack (readAt skb.bytes p n) = .ok answer)
    (hd : svc.processAnswer answer = [d]) (maps : Maps) (slot : Record dnsEventT) (now : UInt64) :
    run (step o svc unpack) (start maps) [.frame skb (some slot), .readDns, .write now] =
      some ⟨writeDestination o maps d now, [], [], [], [], false⟩ := by
  have hread := @answer_read o svc ε unpack skb p n answer hacc hun maps slot
  rw [hd] at hread
  exact (@run_append _ _ _ _ _ [_, _] [_]).mpr ⟨_, hread, rfl⟩

/-- A response with one A record, for `api.openai.com`. -/
def openaiMessage : List UInt8 :=
  [0, 1, 0x81, 0x80, 0, 0, 0, 1, 0, 0, 0, 0] ++
    (3 :: ascii "api" ++ 6 :: ascii "openai" ++ 3 :: ascii "com" ++ [0]) ++
    [0, 1, 0, 1, 0, 0, 1, 44, 0, 4, 104, 18, 6, 192]

def openaiAnswer : List RR := [.a ⟨ascii "api.openai.com.", 300⟩ [104, 18, 6, 192]]

/-- The decoder on that message. -/
def openaiUnpack (_ : List UInt8) : Except Unit (List RR) := .ok openaiAnswer

/-- The response in a UDP packet from port 53. -/
def openaiFrame : Skb :=
  ⟨List.replicate 14 0 ++ (0x45 :: List.replicate 8 0 ++ [17] ++ List.replicate 10 0) ++
    [0, 53, 200, 0, 0, 50, 0, 0] ++ openaiMessage, by decide⟩

theorem openaiFrame_accepted : Accepted openaiFrame.bytes 42 42 := by
  refine ⟨⟨?_, by decide +kernel, by decide +kernel, by decide, by decide⟩, ?_⟩
  · exact @PayloadAt.udp openaiFrame.bytes 0x45 (by decide +kernel) (by decide +kernel)
      (by decide +kernel) (by decide +kernel)
  · exact ⟨by decide +kernel, by decide +kernel, by decide +kernel⟩

/-- The frame arrives, is read, and the destination is written. -/
def openaiRun : List Event :=
  [.frame openaiFrame (some (Record.zero dnsEventT)), .readDns, .write 1]

theorem openaiRun_ends (maps : Maps) :
    run (step .little ⟨agentConfig.aiDomains⟩ openaiUnpack) (start maps) openaiRun =
      some ⟨writeDestination .little maps openaiDestination 1, [], [], [], [], false⟩ := by
  have hcalls : (Service.mk agentConfig.aiDomains).processAnswer openaiAnswer =
      [openaiDestination] := by decide
  exact answer_run openaiFrame_accepted rfl hcalls maps _ 1

end Sample

/-- **Nothing is lost, repeated or overtaken between the interface and the map.** In
every run the reader is alive, the messages that have arrived are those handed to the
service and then those in the ring, and the calls of all of them, in the order of
arrival, are those made, those in hand and those of the ring. -/
theorem capture_in_order (o : ByteOrder) (svc : Service) {ε : Type}
    (unpack : List UInt8 → Except ε (List RR)) (maps : Maps) (es : List Event) (σ : State)
    (hrun : run (step o svc unpack) (start maps) es = some σ) :
    σ.panicked = false ∧
      ∃ queued, σ.dnsRing.map (readDnsEvent o) = queued.map .process ∧
        es.flatMap arrival =
          trace (step o svc unpack) (handed o) (start maps) es ++ queued ∧
        (es.flatMap arrival).flatMap (callsFor svc unpack) =
          trace (step o svc unpack) made (start maps) es ++ σ.calls ++
            queued.flatMap (callsFor svc unpack) := by
  obtain ⟨queued, h⟩ := inOrder_run hrun
  refine ⟨h.alive, queued, h.ring, h.messages, ?_⟩
  rw [h.messages, List.flatMap_append, h.calls]

theorem capture_in_order_openai :
    ∃ σ, run (step .little ⟨agentConfig.aiDomains⟩ openaiUnpack) (start Maps.empty) openaiRun =
        some σ ∧ σ.panicked = false :=
  ⟨_, openaiRun_ends Maps.empty, (capture_in_order _ _ _ _ _ _ (openaiRun_ends Maps.empty)).1⟩

/-- **The map is the replay of the answers in the order of their arrival.** The calls
of the messages that have arrived start with the writes the map has seen, and those
are all when nothing is on its way; an address is known exactly when its latest update
is a write, and the entry then holds the hostname of that write. -/
theorem destinations_by_arrival (o : ByteOrder) (svc : Service) {ε : Type}
    (unpack : List UInt8 → Except ε (List RR)) (maps : Maps)
    (hempty : ∀ key, maps.aiDestinations key = none) (es : List Event) (σ : State)
    (hrun : run (step o svc unpack) (start maps) es = some σ) :
    ∃ ops : List MapOp,
      (∃ later, (es.flatMap arrival).flatMap (callsFor svc unpack) =
          ops.filterMap MapOp.written ++ later ∧
        (σ.dnsRing = [] → σ.calls = [] → later = [])) ∧
      es.flatMap eviction = ops.filterMap MapOp.evicted ∧
      (∀ key d, LastOn MapOp.key ops key (.write d) →
        ∃ info, σ.maps.aiDestinations key = some info ∧
          info.load .hostname = hostnameField d.hostname) ∧
      ∀ key, (σ.maps.aiDestinations key).isSome →
        ∃ d, LastOn MapOp.key ops key (.write d) := by
  obtain ⟨queued, h⟩ := inOrder_run hrun
  have hreplay := replayed_run hempty hrun
  refine ⟨trace (step o svc unpack) mapOps (start maps) es,
    ⟨σ.calls ++ queued.flatMap (callsFor svc unpack), ?_, ?_⟩, ?_, ?_, ?_⟩
  · rw [h.messages, List.flatMap_append, ← h.calls, made_eq_written, List.append_assoc]
  · intro hring hcalls
    have hqueued := h.ring
    rw [hring] at hqueued
    obtain rfl : queued = [] := List.map_eq_nil_iff.mp hqueued.symm
    rw [hcalls]
    rfl
  · exact eviction_eq_evicted hrun
  · intro key d hlast
    have htable : tableOf MapOp.key MapOp.hostname _ key = some d.hostname :=
      tableOf_eq_some.mpr ⟨.write d, hlast, rfl⟩
    have hkey := hreplay key
    rw [htable, Option.map_some] at hkey
    exact Option.map_eq_some_iff.mp hkey
  · intro key hsome
    obtain ⟨info, hinfo⟩ := Option.isSome_iff_exists.mp hsome
    have hkey := hreplay key
    rw [hinfo, Option.map_some] at hkey
    obtain ⟨host, htable, _⟩ := Option.map_eq_some_iff.mp hkey.symm
    obtain ⟨op, hlast, hval⟩ := tableOf_eq_some.mp htable
    cases op with
    | write d => exact ⟨d, hlast⟩
    | evict key' => cases hval

theorem destinations_by_arrival_openai :
    ∃ σ, run (step .little ⟨agentConfig.aiDomains⟩ openaiUnpack) (start Maps.empty) openaiRun =
        some σ ∧
      ∃ ops : List MapOp, (openaiRun.flatMap arrival).flatMap
        (callsFor ⟨agentConfig.aiDomains⟩ openaiUnpack) = ops.filterMap MapOp.written := by
  refine ⟨_, openaiRun_ends Maps.empty, ?_⟩
  obtain ⟨ops, ⟨later, hcalls, hall⟩, _⟩ := destinations_by_arrival .little
    ⟨agentConfig.aiDomains⟩ openaiUnpack Maps.empty (fun _ => rfl) openaiRun _
    (openaiRun_ends Maps.empty)
  rw [hall rfl rfl, List.append_nil] at hcalls
  exact ⟨ops, hcalls⟩

end AiInterceptor.Theorems.Capture
