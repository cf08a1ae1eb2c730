import AiInterceptor.Agent.Manager
import AiInterceptor.Bpf.Connect

/-!
# The managers of one node

The kernel state of a node under any sequence of `NewManager` and `Close` calls,
map writes, evictions and connects. Several managers may be live at once; each
attached `cgroup_connect4` program runs against the maps of its own manager.
-/

namespace AiInterceptor.Agent.Managers

open Lib Bpf Go

/-- One `NewManager` call: its configuration, the manager it returned (`none` for
an error), and whether that manager has been closed. -/
structure Managed where
  cfg : Config
  mgr : Option Manager
  closed : Bool

/-- The node and the `NewManager` calls made on it, oldest first. -/
structure Sys where
  node : Node
  calls : List Managed

def Sys.boot : Sys := ⟨Node.boot, []⟩

/-- Each of the six calls of `NewManager` fails as `fault` says; deletes and
closes succeed. -/
def faultPlan (fault : Call → Option Errno) : Plan := fun c =>
  match c with
  | .filterDel | .linkClose | .objsClose | .serve => .ok
  | _ =>
      match fault c with
      | none => .ok
      | some e => .fail e

inductive Event
  | newManager (cfg : Config) (fault : Call → Option Errno)
  | close (i : Nat)
  | connect (covers : GoString → Bool) (call : ConnectCall)
  | writeDestination (i : Nat) (d : Destination) (now : UInt64)
  | evict (i : Nat) (key : List UInt8)

/-- One attached program run on a context. -/
def runHook (o : ByteOrder) (n : Node) (call : ConnectCall) (ctx : SockAddr) (l : CgroupLink) :
    SockAddr :=
  match n.objs l.prog with
  | none => ctx
  | some ob => (cgroupConnect4 o ob.maps { call with ctx := ctx }).ctx

/-- A `connect()` by a task in a cgroup that `covers` tells is below an attached
one or not: the programs that apply run in attach order, each on the context the
one before it left. -/
def connect4 (o : ByteOrder) (n : Node) (covers : GoString → Bool) (call : ConnectCall) :
    SockAddr :=
  (n.cgroupLinks.filter fun l => covers l.path).foldl (runHook o n call) call.ctx

def Objects.writeDestination (o : ByteOrder) (d : Destination) (now : UInt64) (ob : Objects) :
    Objects :=
  if ob.isOpen then { ob with maps := Agent.writeDestination o ob.maps d now } else ob

def Objects.evict (key : List UInt8) (ob : Objects) : Objects :=
  { ob with maps := ob.maps.evict key }

def step (o : ByteOrder) (ifindex : GoString → Nat) (σ : Sys) : Event → Option Sys
  | .newManager cfg fault =>
      match (newManager o ifindex (faultPlan fault) cfg).run σ.node with
      | (.ok m, x) => some ⟨x, σ.calls ++ [⟨cfg, some m, false⟩]⟩
      | (.err _, x) => some ⟨x, σ.calls ++ [⟨cfg, none, false⟩]⟩
      | (.killed, _) => none
  | .close i =>
      match σ.calls[i]? with
      | some ⟨cfg, some m, _⟩ =>
          match (m.close (faultPlan fun _ => none)).run σ.node with
          | (.ok m', x) => some ⟨x, σ.calls.set i ⟨cfg, some m', true⟩⟩
          | (_, _) => none
      | _ => none
  -- the hook only reads the maps
  | .connect _ _ => some σ
  | .writeDestination i d now =>
      some { σ with node := σ.node.modifyObjs i (Objects.writeDestination o d now) }
  | .evict i key => some { σ with node := σ.node.modifyObjs i (Objects.evict key) }

end AiInterceptor.Agent.Managers
