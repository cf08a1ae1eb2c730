import AiInterceptor.Agent.Manager

/-!
# The agent process (`cmd/ai-interceptor/main.go`)

`main` fills in the default domains if none are configured, builds a manager, serves
until a signal arrives, and closes the manager through its deferred call. A kill, and
`log.Fatal` in either ring reader, end the process without the deferred call.
-/

namespace AiInterceptor.Agent

open Lib Bpf Go

/-- `ai.DefaultAIDomains`. -/
def defaultAIDomains : List GoString :=
  [ascii "openai.com",
    ascii "anthropic.com",
    ascii "generativelanguage.googleapis.com",
    ascii "aiplatform.googleapis.com",
    ascii "perplexity.ai",
    ascii "deepseek.com"]

/-- The configuration `main` hands to `NewManager`. -/
def withDefaultDomains (cfg : Config) : Config :=
  if cfg.aiDomains.length = 0 then { cfg with aiDomains := defaultAIDomains } else cfg

/-- One life of the agent: the configuration of its manager, and how its kernel calls
went. -/
structure Lifetime where
  cfg : Config
  plan : Plan

/-- The end of a process that had loaded the objects from `first` on. The kernel
closes its descriptors, and with them its cgroup link; qdiscs and filters are
nobody's descriptor and stay. -/
def exit (first : Nat) (n : Node) : Node :=
  { n with
    objs := fun id =>
      if first ≤ id then (n.objs id).map fun ob => { ob with isOpen := false } else n.objs id
    cgroupLinks := n.cgroupLinks.filter (·.prog < first) }

variable (o : ByteOrder) (ifindex : GoString → Nat)

def main (l : Lifetime) (n : Node) : Node :=
  match (newManager o ifindex l.plan l.cfg).run n with
  | (.ok m, x) =>
      match l.plan .serve with
      | .ok => exit n.loads ((m.close l.plan).run x).2
      | .fail _ => exit n.loads x  -- `log.Fatal` in a reader
      | .kill => exit n.loads x
  | (.err _, x) => exit n.loads x  -- `log.Fatal` in `main`
  | (.killed, x) => exit n.loads x

/-- A node after a sequence of lifetimes. -/
def replay (hist : List Lifetime) : Node := hist.foldl (fun n l => main o ifindex l n) Node.boot

end AiInterceptor.Agent
