import AiInterceptor.Agent.Dns
import AiInterceptor.Agent.Reader
import AiInterceptor.Lib.Effects

/-!
# The BPF manager (`internal/bpf/manager.go`)

`NewManager` makes six kernel calls in a fixed order, each of which may fail for
an external reason, and undoes the earlier ones on four different error paths;
`Close` undoes them all. The node keeps what outlives the process: the clsact
qdisc and TC filters stay until deleted, while descriptors and the cgroup link
go with the process.

A `Plan` says how each call goes on one run of the process: it succeeds, fails
with an errno, or the process is killed right before it.
-/

namespace AiInterceptor.Agent

open Lib Bpf Go

/-- The fields of `config.Config` the manager reads. -/
structure Config where
  proxyIP : GoString
  proxyPort : UInt16
  networkInterface : GoString
  cgroupPath : GoString
  aiDomains : List GoString
  deriving DecidableEq, Repr

inductive Errno
  | eexist
  | verifier
  | other (code : Nat)
  deriving DecidableEq, Repr

/-- The kernel calls of one agent process, in program order. `serve` is the time
between `NewManager` and `Close`. -/
inductive Call
  | load | proxyUpdate | interfaceByName | qdiscAdd | filterAdd | attachCgroup | serve
  | filterDel | linkClose | objsClose
  deriving DecidableEq, Repr

inductive Verdict
  | ok
  | fail (e : Errno)
  | kill
  deriving DecidableEq, Repr

abbrev Plan := Call → Verdict

/-- The errors `NewManager` reports, by their message. -/
inductive Error
  | verifierRejected                              -- "BPF verifier rejected program: ..."
  | loadObjects (e : Errno)                       -- "load BPF objects: ..."
  | invalidProxyIP (ip : GoString)                -- "invalid proxy IP ..."
  | proxyUpdate (e : Errno)                       -- the map error itself
  | interface (name : GoString) (e : Errno)       -- "interface ...: ..."
  | addQdisc (e : Errno)                          -- "add clsact qdisc: ..."
  | addFilter (e : Errno)                         -- "add TC filter: ..."
  | attachCgroup (e : Errno)                      -- "attach cgroup/connect4: ..."
  deriving DecidableEq, Repr

/-- A TC filter: the attributes that identify it, and the program set it runs. -/
structure Filter where
  linkIndex : Nat
  parent : Nat
  handle : Nat
  priority : Nat
  prog : Nat
  deriving DecidableEq, Repr

def Filter.sameKey (f g : Filter) : Bool :=
  f.linkIndex == g.linkIndex && f.parent == g.parent && f.handle == g.handle &&
    f.priority == g.priority

/-- An attached `cgroup/connect4` program. -/
structure CgroupLink where
  path : GoString
  prog : Nat
  deriving DecidableEq, Repr

/-- Loaded programs and maps, and whether the loader still holds them open. -/
structure Objects where
  maps : Maps
  isOpen : Bool

/-- What the kernel holds for the agents of one node. Objects are numbered by
load attempt; `cgroupLinks` is in attach order. -/
structure Node where
  objs : Nat → Option Objects
  loads : Nat
  clsact : Nat → Bool
  filters : List Filter
  cgroupLinks : List CgroupLink

def Node.boot : Node := ⟨fun _ => none, 0, fun _ => false, [], []⟩

inductive Link
  | tc (filter : Filter)
  | cgroup (link : CgroupLink)
  deriving DecidableEq, Repr

structure Manager where
  objs : Nat
  dnsSvc : Service
  links : List Link
  deriving DecidableEq, Repr

abbrev K := Prog Node Error

/-- A kernel call under a plan: `act` when it succeeds, `onFail` when it fails. -/
def syscall {α : Type} (plan : Plan) (c : Call) (act : K α) (onFail : Errno → K α) : K α :=
  match plan c with
  | .ok => act
  | .fail e => onFail e
  | .kill => Prog.killed

/-! ## Loading and the proxy entry -/

/-- `LoadAIInterceptorObjects`: fresh maps, whatever the outcome a fresh number. -/
def loadObjects (plan : Plan) : K Nat :=
  syscall plan .load
    ⟨fun n => (.ok n.loads,
      { n with objs := Function.update n.objs n.loads (some ⟨Maps.empty, true⟩)
               loads := n.loads + 1 })⟩
    (fun e => ⟨fun n => (.err (if e = .verifier then .verifierRejected else .loadObjects e),
      { n with loads := n.loads + 1 })⟩)

def proxyStores (o : ByteOrder) (ip : Ip4) (port : UInt16) : List (ProxyField × List UInt8) :=
  [(.ip, o.put32 (o.get32 ip.bytes)), (.port, o.put16 (ntohs o port))]

theorem proxyStores_sized (o : ByteOrder) (ip : Ip4) (port : UInt16) :
    goProxyConfigT.Sized (proxyStores o ip port) := by
  intro s hs
  simp only [proxyStores, List.mem_cons, List.not_mem_nil, or_false] at hs
  rcases hs with rfl | rfl
  · exact o.put32_length _
  · exact o.put16_length _

/-- The map value `writeProxyConfig` marshals. -/
def proxyValue (o : ByteOrder) (ip : Ip4) (port : UInt16) : Record goProxyConfigT :=
  (Record.zero goProxyConfigT).storeAll (proxyStores o ip port) (proxyStores_sized o ip port)

def Objects.setProxyConfig (ob : Objects) (value : Record proxyConfigT) : Objects :=
  { ob with maps := { ob.maps with proxyConfig := value } }

def Node.modifyObjs (n : Node) (id : Nat) (f : Objects → Objects) : Node :=
  { n with objs := Function.update n.objs id ((n.objs id).map f) }

def writeProxyConfig (o : ByteOrder) (plan : Plan) (id : Nat) (proxyIP : GoString)
    (proxyPort : UInt16) : K Unit :=
  match parseIP4 proxyIP with
  | none => Prog.throw (.invalidProxyIP proxyIP)
  | some ip =>
      syscall plan .proxyUpdate
        (Prog.modify fun n => n.modifyObjs id (·.setProxyConfig (proxyValue o ip proxyPort)))
        (fun e => Prog.throw (.proxyUpdate e))

/-! ## Attaching -/

def tcClsactMajor : Nat := 0xffff
def tcIngressMinor : Nat := 0xfff2
def tcFilterHandle : Nat := 1
def tcFilterPriority : Nat := 1

/-- `netlink.MakeHandle`. -/
def makeHandle (major minor : Nat) : Nat := major * 0x10000 + minor

/-- The filter `attachTC` installs. -/
def tcFilter (id linkIndex : Nat) : Filter :=
  { linkIndex := linkIndex
    parent := makeHandle tcClsactMajor tcIngressMinor
    handle := makeHandle 0 tcFilterHandle
    priority := tcFilterPriority
    prog := id }

/-- `netlink.QdiscAdd` as `attachTC` uses it: `EEXIST`, which the kernel returns
when the clsact qdisc is there already, is not an error. -/
def qdiscAdd (plan : Plan) (linkIndex : Nat) : K Unit :=
  let onError (e : Errno) : K Unit :=
    if e = .eexist then pure () else Prog.throw (.addQdisc e)
  syscall plan .qdiscAdd
    ⟨fun n =>
      if n.clsact linkIndex then (onError .eexist).run n
      else (.ok (), { n with clsact := Function.update n.clsact linkIndex true })⟩
    onError

/-- `netlink.FilterAdd`: the kernel rejects a filter whose key is taken. -/
def filterAdd (plan : Plan) (f : Filter) : K Unit :=
  syscall plan .filterAdd
    ⟨fun n =>
      if n.filters.any f.sameKey then (.err (.addFilter .eexist), n)
      else (.ok (), { n with filters := n.filters ++ [f] })⟩
    (fun e => Prog.throw (.addFilter e))

def attachTC (plan : Plan) (id linkIndex : Nat) : K Link := do
  qdiscAdd plan linkIndex
  filterAdd plan (tcFilter id linkIndex)
  return .tc (tcFilter id linkIndex)

def attachCgroup (plan : Plan) (id : Nat) (cgroupPath : GoString) : K Link :=
  syscall plan .attachCgroup
    ⟨fun n => (.ok (.cgroup ⟨cgroupPath, id⟩),
      { n with cgroupLinks := n.cgroupLinks ++ [⟨cgroupPath, id⟩] })⟩
    (fun e => Prog.throw (.attachCgroup e))

/-! ## Closing -/

/-- `Close` of one link; errors are ignored by `closeLinks`. -/
def closeLink (plan : Plan) : Link → K Unit
  | .tc f =>
      syscall plan .filterDel
        (Prog.modify fun n => { n with filters := n.filters.filter fun g => !f.sameKey g })
        (fun _ => pure ())
  | .cgroup l =>
      syscall plan .linkClose
        (Prog.modify fun n => { n with cgroupLinks := n.cgroupLinks.filter (·.prog ≠ l.prog) })
        (fun _ => pure ())

def closeLinks (plan : Plan) : List Link → K Unit
  | [] => pure ()
  | l :: rest => do
      closeLink plan l
      closeLinks plan rest

/-- `AIInterceptorObjects.Close`. -/
def objsClose (plan : Plan) (id : Nat) : K Unit :=
  syscall plan .objsClose
    (Prog.modify fun n => n.modifyObjs id fun ob => { ob with isOpen := false })
    (fun _ => pure ())

/-! ## The manager's life -/

section Manager

variable (o : ByteOrder) (ifindex : GoString → Nat)

/-- `net.InterfaceByName`. -/
def interfaceByName (plan : Plan) (name : GoString) : K Nat :=
  syscall plan .interfaceByName (pure (ifindex name)) (fun e => Prog.throw (.interface name e))

def newManager (plan : Plan) (cfg : Config) : K Manager := do
  let id ← loadObjects plan
  (writeProxyConfig o plan id cfg.proxyIP cfg.proxyPort).cleanup (objsClose plan id)
  let linkIndex ← (interfaceByName ifindex plan cfg.networkInterface).cleanup (objsClose plan id)
  let tc ← (attachTC plan id linkIndex).cleanup (objsClose plan id)
  let cg ← (attachCgroup plan id cfg.cgroupPath).cleanup do
    closeLinks plan [tc]
    objsClose plan id
  return { objs := id, dnsSvc := ⟨cfg.aiDomains⟩, links := [tc, cg] }

end Manager

def Manager.close (plan : Plan) (m : Manager) : K Manager := do
  closeLinks plan m.links
  objsClose plan m.objs
  return { m with links := [] }

end AiInterceptor.Agent
