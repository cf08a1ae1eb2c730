import AiInterceptor.Agent.Dns
import AiInterceptor.Agent.Reader
import AiInterceptor.Bpf.Connect

/-!
# The data plane of one running agent

Between `NewManager` and `Close`, four parties touch the shared maps and rings in
any order: the DNS reader writes destinations, the LRU map evicts them, the hook
redirects connects, and the redirect reader logs them. Each step below is one
atomic access. A DNS message queues the `writeDestination` calls it makes; every
one of them is a step of its own, and messages being processed interleave freely.
-/

namespace AiInterceptor.Agent.DataPlane

open Lib Bpf Go

structure State where
  maps : Maps
  /-- For each message read so far, the calls it still has to make. -/
  pending : List (List Destination)
  /-- `redirect_events`: the samples submitted and not yet read. -/
  ring : List (List UInt8)
  log : List RedirectLine

inductive Event
  | dnsMessage (answer : List RR)
  | write (msg : Nat) (d : Destination) (now : UInt64)
  | evict (key : List UInt8)
  | connect (call : ConnectCall)
  | readRedirect

/-- The state a manager starts to serve in. -/
def start (maps : Maps) : State := ⟨maps, [], [], []⟩

def step (o : ByteOrder) (svc : Service) (σ : State) : Event → Option State
  | .dnsMessage answer => some { σ with pending := σ.pending ++ [svc.processAnswer answer] }
  | .write msg d now =>
      match σ.pending[msg]? with
      | some (d' :: rest) =>
          if d = d' then
            some { σ with maps := writeDestination o σ.maps d now
                          pending := σ.pending.set msg rest }
          else none
      | _ => none
  | .evict key => some { σ with maps := σ.maps.evict key }
  | .connect call =>
      some { σ with ring := σ.ring ++
        ((cgroupConnect4 o σ.maps call).submitted.map Record.bytes).toList }
  | .readRedirect =>
      match σ.ring with
      | [] => none
      | sample :: rest =>
          some { σ with ring := rest, log := σ.log ++ (readRedirectEvent o sample).toList }

/-! ## What a step can do -/

section Step

variable {o : ByteOrder} {svc : Service} {σ σ' : State}

theorem step_dnsMessage {answer : List RR} (h : step o svc σ (.dnsMessage answer) = some σ') :
    σ' = { σ with pending := σ.pending ++ [svc.processAnswer answer] } :=
  (Option.some.inj h).symm

theorem step_write {msg : Nat} {d : Destination} {now : UInt64}
    (h : step o svc σ (.write msg d now) = some σ') :
    ∃ rest, σ.pending[msg]? = some (d :: rest) ∧
      σ' = { σ with maps := writeDestination o σ.maps d now
                    pending := σ.pending.set msg rest } := by
  simp only [step] at h
  split at h
  · rename_i d' rest hmsg
    split at h
    · rename_i hd
      subst hd
      exact ⟨rest, hmsg, (Option.some.inj h).symm⟩
    · cases h
  · cases h

theorem step_evict {key : List UInt8} (h : step o svc σ (.evict key) = some σ') :
    σ' = { σ with maps := σ.maps.evict key } :=
  (Option.some.inj h).symm

theorem step_connect {call : ConnectCall} (h : step o svc σ (.connect call) = some σ') :
    σ' = { σ with ring := σ.ring ++
      ((cgroupConnect4 o σ.maps call).submitted.map Record.bytes).toList } :=
  (Option.some.inj h).symm

theorem step_readRedirect (h : step o svc σ .readRedirect = some σ') :
    ∃ sample rest, σ.ring = sample :: rest ∧
      σ' = { σ with ring := rest, log := σ.log ++ (readRedirectEvent o sample).toList } := by
  simp only [step] at h
  split at h
  · cases h
  · rename_i sample rest hring
    exact ⟨sample, rest, hring, (Option.some.inj h).symm⟩

end Step

end AiInterceptor.Agent.DataPlane
