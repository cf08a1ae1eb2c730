import AiInterceptor.Agent.DataPlane
import AiInterceptor.Bpf.Observer

/-!
# From frames to destinations

The whole path of a DNS answer through one agent. The TC hook puts a sample into
`dns_events` for a frame it takes for a response; `ReadDNSEvents` takes one sample
after the other, hands its message to `ProcessDNSEvent`, and comes back for the next
one when all the `writeDestination` calls of that message have been made. Frames,
evictions, connects and the redirect reader go on in between.

The reader is one goroutine, so unlike in `DataPlane` the calls of two messages never
interleave. A sample whose size field wraps makes the reader, and with it the
process, panic.
-/

namespace AiInterceptor.Agent.Pipeline

open Lib Bpf Go

structure State where
  maps : Maps
  /-- `dns_events`: the samples submitted and not yet read. -/
  dnsRing : List (List UInt8)
  /-- The calls the message in hand still has to make. -/
  calls : List Destination
  /-- `redirect_events`: the samples submitted and not yet read. -/
  ring : List (List UInt8)
  log : List RedirectLine
  panicked : Bool

inductive Event
  | frame (skb : Skb) (slot : Option (Record dnsEventT))
  | readDns
  | write (now : UInt64)
  | evict (key : List UInt8)
  | connect (call : ConnectCall)
  | readRedirect

def start (maps : Maps) : State := ⟨maps, [], [], [], [], false⟩

/-- The records a run of the hook leaves in the ring; a discarded one is never read. -/
def submitted (r : TcResult) : List (List UInt8) :=
  r.ring.filterMap fun op =>
    match op with
    | .submit record => some record
    | _ => none

section Step

variable (o : ByteOrder) (svc : Service) {ε : Type} (unpack : List UInt8 → Except ε (List RR))

/-- The calls `ProcessDNSEvent` makes for a message; none for one that does not unpack. -/
def callsFor (msg : List UInt8) : List Destination :=
  match svc.processDNSEvent unpack msg with
  | .ok calls => calls
  | .error _ => []

/-- The loop body of `ReadDNSEvents`, up to the calls it has to make. -/
def takeSample (σ : State) (sample : List UInt8) : State :=
  match readDnsEvent o sample with
  | .skip => σ
  | .process msg => { σ with calls := callsFor svc unpack msg }
  | .panic => { σ with panicked := true }

def step (σ : State) : Event → Option State
  | .frame skb slot =>
      some { σ with dnsRing := σ.dnsRing ++ submitted (tcDnsObserver o skb slot) }
  | .readDns =>
      match σ.panicked, σ.calls, σ.dnsRing with
      | false, [], sample :: rest =>
          some (takeSample o svc unpack { σ with dnsRing := rest } sample)
      | _, _, _ => none
  | .write now =>
      match σ.panicked, σ.calls with
      | false, d :: rest =>
          some { σ with maps := writeDestination o σ.maps d now, calls := rest }
      | _, _ => none
  | .evict key => some { σ with maps := σ.maps.evict key }
  | .connect call =>
      some { σ with ring := σ.ring ++
        ((cgroupConnect4 o σ.maps call).submitted.map Record.bytes).toList }
  | .readRedirect =>
      match σ.panicked, σ.ring with
      | false, sample :: rest =>
          some { σ with ring := rest, log := σ.log ++ (readRedirectEvent o sample).toList }
      | _, _ => none

end Step

/-! ## What a step can do -/

section Cases

variable {o : ByteOrder} {svc : Service} {ε : Type} {unpack : List UInt8 → Except ε (List RR)}
  {σ σ' : State}

theorem step_frame {skb : Skb} {slot : Option (Record dnsEventT)}
    (h : step o svc unpack σ (.frame skb slot) = some σ') :
    σ' = { σ with dnsRing := σ.dnsRing ++ submitted (tcDnsObserver o skb slot) } :=
  (Option.some.inj h).symm

theorem step_readDns (h : step o svc unpack σ .readDns = some σ') :
    ∃ sample rest, σ.panicked = false ∧ σ.calls = [] ∧ σ.dnsRing = sample :: rest ∧
      σ' = takeSample o svc unpack { σ with dnsRing := rest } sample := by
  simp only [step] at h
  split at h
  · rename_i sample rest hpanic hcalls hring
    exact ⟨sample, rest, hpanic, hcalls, hring, (Option.some.inj h).symm⟩
  · cases h

theorem step_write {now : UInt64} (h : step o svc unpack σ (.write now) = some σ') :
    ∃ d rest, σ.panicked = false ∧ σ.calls = d :: rest ∧
      σ' = { σ with maps := writeDestination o σ.maps d now, calls := rest } := by
  simp only [step] at h
  split at h
  · rename_i d rest hpanic hcalls
    exact ⟨d, rest, hpanic, hcalls, (Option.some.inj h).symm⟩
  · cases h

theorem step_evict {key : List UInt8} (h : step o svc unpack σ (.evict key) = some σ') :
    σ' = { σ with maps := σ.maps.evict key } :=
  (Option.some.inj h).symm

theorem step_connect {call : ConnectCall} (h : step o svc unpack σ (.connect call) = some σ') :
    σ' = { σ with ring := σ.ring ++
      ((cgroupConnect4 o σ.maps call).submitted.map Record.bytes).toList } :=
  (Option.some.inj h).symm

theorem step_readRedirect (h : step o svc unpack σ .readRedirect = some σ') :
    ∃ sample rest, σ.panicked = false ∧ σ.ring = sample :: rest ∧
      σ' = { σ with ring := rest, log := σ.log ++ (readRedirectEvent o sample).toList } := by
  simp only [step] at h
  split at h
  · rename_i sample rest hpanic hring
    exact ⟨sample, rest, hpanic, hring, (Option.some.inj h).symm⟩
  · cases h

end Cases

end AiInterceptor.Agent.Pipeline
