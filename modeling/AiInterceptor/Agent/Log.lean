import AiInterceptor.Agent.Pipeline

/-!
# What the agent logs

The lines that both readers log for what they take out of the rings, in the order in
which they reach the logger: those of `ProcessDNSEvent` while it follows CNAME records,
one for each `writeDestination` call right before it is made, and those of the redirect
reader. The lines for read errors of a ring itself are not among them, as no such error
is part of the pipeline. The line for a resolved address and the update of the map after
it are one step, whose update succeeds. Whether debug lines are kept is the sink's
affair.
-/

namespace AiInterceptor.Agent

open Lib Bpf Go

inductive LogLine (ε : Type)
  | cnameChainStarted (aiDomain cnameTarget : GoString)      -- "dns cname chain started"
  | cnameChainExtended (aiDomain via cnameTarget : GoString) -- "dns cname chain extended"
  | aiDomainResolved (hostname ip : GoString) (ttlS : UInt32) -- "dns ai domain resolved"
  | dnsParseError (err : ε)                                   -- "dns parse error"
  | redirectEventTooSmall (got : Nat)                         -- "redirect event too small"
  | aiTrafficRedirected (line : RedirectLine)                 -- "ai_traffic_redirected"

section Lines

variable {ε : Type} (svc : Service)

/-- What the body of the first loop logs; `cnameStep` is what it stores. -/
def Service.cnameLine (aiCNAMEs : StringMap) : RR → Option (LogLine ε)
  | .cname hdr target =>
      let src := trimDot hdr.name
      let tgt := trimDot target
      if svc.isAIDomain src then some (.cnameChainStarted src tgt)
      else (aiCNAMEs src).map fun origin => .cnameChainExtended origin src tgt
  | _ => none

/-- The first loop, from a map on. -/
def Service.cnameLines : StringMap → List RR → List (LogLine ε)
  | _, [] => []
  | aiCNAMEs, rr :: rest =>
      (svc.cnameLine aiCNAMEs rr).toList ++ Service.cnameLines (svc.cnameStep aiCNAMEs rr) rest

/-- In the second loop, in front of a `writeDestination` call. -/
def resolvedLine (d : Destination) : LogLine ε :=
  .aiDomainResolved d.hostname (ipString d.ip4) d.ttl

/-- What one step of the pipeline logs, all but ring read errors. -/
def Pipeline.logged (o : ByteOrder) (unpack : List UInt8 → Except ε (List RR)) (σ : State) :
    Event → List (LogLine ε)
  | .readDns =>
      match σ.dnsRing with
      | [] => []
      | sample :: _ =>
          match readDnsEvent o sample with
          | .process msg =>
              match unpack msg with
              | .ok answer => svc.cnameLines (fun _ => none) answer
              | .error err => [.dnsParseError err]
          | _ => []
  | .write _ => (σ.calls.head?.map resolvedLine).toList
  | .readRedirect =>
      match σ.ring with
      | [] => []
      | sample :: _ =>
          match readRedirectEvent o sample with
          | some line => [.aiTrafficRedirected line]
          | none => [.redirectEventTooSmall sample.length]
  | .frame _ _ | .evict _ | .connect _ => []

end Lines

end AiInterceptor.Agent
