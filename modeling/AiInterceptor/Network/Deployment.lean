import AiInterceptor.Agent.Pipeline
import AiInterceptor.Lib.Simulation
import AiInterceptor.Proxy.Session
import AiInterceptor.Theorems.Interception

/-!
# The agent and the proxy together

The deployment of the README: the agent on a node, and the pass-through proxy on another
machine, at the address and port the agent is configured with. A TCP connect of the node
goes where the hook has left it to go; where that is the proxy, `main` accepts it, and
from then on the process at the other end is the client of a session. The proxy may have
other clients as well.

Each of the two parts makes a run of its own (`agent_run`, `proxy_run`).
-/

namespace AiInterceptor.Network

open Lib Bpf Go Agent Proxy Theorems.Interception

structure Deployment where
  agent : Pipeline.State
  proxy : List Session

namespace Deployment

inductive Event
  | node (e : Pipeline.Event)
  /-- A client from elsewhere connects to the proxy. -/
  | visit
  | session (i : Nat) (e : Session.Event)

/-- An agent that has just started, and a proxy that has just started. -/
def start (maps : Maps) : Deployment := ⟨Pipeline.start maps, []⟩

instance (o : ByteOrder) (ctx : SockAddr) (ip : Ip4) (port : UInt16) :
    Decidable (Holds o ctx ip port) :=
  decidable_of_iff (o.put32 ctx.userIp4 = ip.bytes ∧
      ctx.userPort = ctx.userPort.toUInt16.toUInt32 ∧
      o.put16 ctx.userPort.toUInt16 = ByteOrder.big.put16 port)
    ⟨fun h => ⟨h.1, h.2.1, h.2.2⟩, fun h => ⟨h.address, h.narrow, h.port⟩⟩

instance (ctx : SockAddr) : Decidable (IsTcp ctx) := inferInstanceAs (Decidable (_ ∧ _))

section Step

variable (o : ByteOrder) (svc : Service) {ε : Type} (unpack : List UInt8 → Except ε (List RR))
  (lowerRune : Nat → Nat) (ip : Ip4) (port : UInt16)

/-- The event is a connect that ends up at the proxy. -/
def lands (maps : Maps) : Pipeline.Event → Bool
  | .connect call => IsTcp call.ctx ∧ Holds o (cgroupConnect4 o maps call).ctx ip port
  | _ => false

/-- `ln.Accept`; a process that has ended accepts nothing. -/
def accept (proxy : List Session) : List Session :=
  (serverStep lowerRune proxy .spawn).getD proxy

def step (δ : Deployment) : Event → Option Deployment
  | .node e =>
      (Pipeline.step o svc unpack δ.agent e).map fun agent =>
        ⟨agent, if lands o ip port δ.agent.maps e then accept lowerRune δ.proxy else δ.proxy⟩
  | .visit => (serverStep lowerRune δ.proxy .spawn).map fun proxy => { δ with proxy }
  | .session i e => (serverStep lowerRune δ.proxy (.on i e)).map fun proxy => { δ with proxy }

end Step

/-! ## The two parts -/

def Event.node? : Event → Option Pipeline.Event
  | .node e => some e
  | _ => none

theorem mem_node_iff {es : List Event} {e : Pipeline.Event} :
    e ∈ es.filterMap Event.node? ↔ .node e ∈ es := by
  rw [List.mem_filterMap]
  constructor
  · rintro ⟨ev, hev, hnode⟩
    cases ev with
    | node e' =>
        obtain rfl := Option.some.inj hnode
        exact hev
    | visit | session i e' => cases hnode
  · intro h
    exact ⟨.node e, h, rfl⟩

section Parts

variable {o : ByteOrder} {svc : Service} {ε : Type} {unpack : List UInt8 → Except ε (List RR)}
  {lowerRune : Nat → Nat} {ip : Ip4} {port : UInt16} {δ δ' : Deployment} {ev : Event}
  {es : List Event} {maps : Maps}

theorem agent_step (h : step o svc unpack lowerRune ip port δ ev = some δ') :
    run (Pipeline.step o svc unpack) δ.agent ev.node?.toList = some δ'.agent := by
  cases ev with
  | node e =>
      obtain ⟨agent, hagent, rfl⟩ := Option.map_eq_some_iff.mp h
      exact run_cons.mpr ⟨agent, hagent, rfl⟩
  | visit | session i e =>
      obtain ⟨proxy, _, rfl⟩ := Option.map_eq_some_iff.mp h
      rfl

/-- A step of the deployment is at most one step of the proxy. -/
theorem proxy_step (h : step o svc unpack lowerRune ip port δ ev = some δ') :
    δ'.proxy = δ.proxy ∨ ∃ pe, serverStep lowerRune δ.proxy pe = some δ'.proxy := by
  cases ev with
  | node e =>
      obtain ⟨agent, _, rfl⟩ := Option.map_eq_some_iff.mp h
      cases hlands : lands o ip port δ.agent.maps e with
      | false => exact .inl rfl
      | true =>
          show accept lowerRune δ.proxy = δ.proxy ∨ _
          rw [accept]
          cases hspawn : serverStep lowerRune δ.proxy .spawn with
          | none => exact .inl rfl
          | some proxy => exact .inr ⟨.spawn, hspawn⟩
  | visit =>
      obtain ⟨proxy, hproxy, rfl⟩ := Option.map_eq_some_iff.mp h
      exact .inr ⟨.spawn, hproxy⟩
  | session i e =>
      obtain ⟨proxy, hproxy, rfl⟩ := Option.map_eq_some_iff.mp h
      exact .inr ⟨.on i e, hproxy⟩

theorem agent_run (h : run (step o svc unpack lowerRune ip port) δ es = some δ') :
    run (Pipeline.step o svc unpack) δ.agent (es.filterMap Event.node?) = some δ'.agent := by
  induction es generalizing δ with
  | nil =>
      rw [run_nil, Option.some.injEq] at h
      rw [h]
      rfl
  | cons ev rest ih =>
      obtain ⟨ρ, hstep, hrest⟩ := run_cons.mp h
      have hall := run_append.mpr ⟨_, agent_step hstep, ih hrest⟩
      cases hnode : ev.node? with
      | none =>
          rw [hnode] at hall
          rw [List.filterMap_cons_none hnode]
          exact hall
      | some e =>
          rw [hnode] at hall
          rw [List.filterMap_cons_some hnode]
          exact hall

theorem proxy_run (h : run (step o svc unpack lowerRune ip port) δ es = some δ') :
    ∃ pes, run (serverStep lowerRune) δ.proxy pes = some δ'.proxy := by
  induction es generalizing δ with
  | nil =>
      rw [run_nil, Option.some.injEq] at h
      exact ⟨[], by rw [h]; rfl⟩
  | cons ev rest ih =>
      obtain ⟨ρ, hstep, hrest⟩ := run_cons.mp h
      obtain ⟨pes, hpes⟩ := ih hrest
      rcases proxy_step hstep with hsame | ⟨pe, hpe⟩
      · exact ⟨pes, hsame ▸ hpes⟩
      · exact ⟨pe :: pes, run_cons.mpr ⟨_, hpe, hpes⟩⟩

end Parts

end Deployment

end AiInterceptor.Network
