import AiInterceptor.Agent.Managers
import AiInterceptor.Lib.TSys
import AiInterceptor.Logic.Manager
import AiInterceptor.Logic.Redirect

/-!
# Hooks are live only with a written proxy entry

Looking up index 0 of an ARRAY map never fails, so the hook cannot tell an unset
proxy entry from a set one. What protects it is the order of the steps of
`NewManager` and their cleanup paths. The invariant `Inv` ties every filter, link
and open object of a node to a running manager whose entry is written, and every
step of every manager keeps it.
-/

namespace AiInterceptor.Theorems.LiveHooks

open Lib Bpf Go Agent Agent.Managers

variable {o : ByteOrder} {ifindex : GoString → Nat}

def Running (c : Managed) : Prop := c.mgr.isSome ∧ c.closed = false

/-- `NewManager` returned an error, or `Close` has returned. -/
def Released (c : Managed) : Prop := c.mgr = none ∨ c.closed = true

/-- The proxy entry of the objects `i` is the encoding of the address and port of
`cfg`. -/
def ProxyWritten (o : ByteOrder) (n : Node) (i : Nat) (cfg : Config) : Prop :=
  ∃ ip ob, parseIP4 cfg.proxyIP = some ip ∧ n.objs i = some ob ∧
    ob.maps.proxyConfig = proxyValue o ip cfg.proxyPort

structure Inv (o : ByteOrder) (ifindex : GoString → Nat) (σ : Sys) : Prop where
  loads : σ.node.loads = σ.calls.length
  fresh : ∀ id, σ.node.loads ≤ id → σ.node.objs id = none
  manager : ∀ (i : Nat) c m, σ.calls[i]? = some c → c.mgr = some m → m.objs = i ∧
    m.links = if c.closed then [] else
      [.tc (tcFilter i (ifindex c.cfg.networkInterface)), .cgroup ⟨c.cfg.cgroupPath, i⟩]
  proxy : ∀ (i : Nat) c, σ.calls[i]? = some c → Running c → ProxyWritten o σ.node i c.cfg
  released : ∀ (i : Nat) c, σ.calls[i]? = some c → Released c → σ.node.Closed i
  filters : ∀ f ∈ σ.node.filters, ∃ c, σ.calls[f.prog]? = some c ∧ Running c ∧
    f = tcFilter f.prog (ifindex c.cfg.networkInterface)
  links : ∀ l ∈ σ.node.cgroupLinks, ∃ c, σ.calls[l.prog]? = some c ∧ Running c

theorem inv_boot : Inv o ifindex Sys.boot where
  loads := rfl
  fresh := fun _ _ => rfl
  manager := fun i c m h => by simp [Sys.boot] at h
  proxy := fun i c h => by simp [Sys.boot] at h
  released := fun i c h => by simp [Sys.boot] at h
  filters := fun f h => absurd h List.not_mem_nil
  links := fun l h => absurd h List.not_mem_nil

theorem not_released {c : Managed} (h : Running c) : ¬ Released c := by
  rintro (hm | hc)
  · rw [Running, hm] at h
    exact absurd h.1 (by simp)
  · rw [Running, hc] at h
    exact absurd h.2 (by simp)

theorem getElem?_snoc {cs : List Managed} {c d : Managed} {i : Nat} :
    (cs ++ [c])[i]? = some d ↔ cs[i]? = some d ∨ (i = cs.length ∧ d = c) := by
  rcases Nat.lt_trichotomy i cs.length with hlt | rfl | hgt
  · rw [List.getElem?_append_left hlt]
    constructor
    · exact Or.inl
    · rintro (h | ⟨rfl, _⟩)
      · exact h
      · exact absurd hlt (lt_irrefl _)
  · simp [eq_comm]
  · rw [List.getElem?_eq_none (by simp; omega), List.getElem?_eq_none (by omega)]
    simp
    omega

/-! ## One step -/

theorem orderly_faultPlan (fault : Call → Option Errno) : Orderly (faultPlan fault) where
  alive := by
    intro c
    cases c <;> simp only [faultPlan, ne_eq, reduceCtorEq, not_false_eq_true]
    all_goals
      split <;> simp
  filterDel := rfl
  linkClose := rfl
  objsClose := rfl

/-- What a call of `NewManager` does to the node: what is there already stays, and
what is new carries the number of the call. -/
structure Added (o : ByteOrder) (ifindex : GoString → Nat) (n : Node) (c : Managed) (x : Node) :
    Prop where
  loads : x.loads = n.loads + 1
  objs : ∀ id, id ≠ n.loads → x.objs id = n.objs id
  manager : ∀ m, c.mgr = some m → m.objs = n.loads ∧ m.links = if c.closed then [] else
    [.tc (tcFilter n.loads (ifindex c.cfg.networkInterface)), .cgroup ⟨c.cfg.cgroupPath, n.loads⟩]
  proxy : Running c → ProxyWritten o x n.loads c.cfg
  released : Released c → x.Closed n.loads
  filters : ∀ f ∈ x.filters, f ∈ n.filters ∨
    (Running c ∧ f = tcFilter n.loads (ifindex c.cfg.networkInterface))
  links : ∀ l ∈ x.cgroupLinks, l ∈ n.cgroupLinks ∨ (Running c ∧ l.prog = n.loads)

theorem Inv.added {σ : Sys} (h : Inv o ifindex σ) {c : Managed} {x : Node}
    (hx : Added o ifindex σ.node c x) : Inv o ifindex ⟨x, σ.calls ++ [c]⟩ := by
  -- the new call has the next number, so the sets of the earlier ones stay as they are
  have hold : ∀ {i : Nat} {d : Managed}, σ.calls[i]? = some d → x.objs i = σ.node.objs i := by
    intro i d hd
    obtain ⟨_, _⟩ := List.getElem?_eq_some_iff.mp hd
    have := h.loads
    exact hx.objs i (by omega)
  have hnew : (σ.calls ++ [c])[σ.node.loads]? = some c := getElem?_snoc.mpr (.inr ⟨h.loads, rfl⟩)
  refine ⟨?_, ?_, ?_, ?_, ?_, ?_, ?_⟩
  · show x.loads = (σ.calls ++ [c]).length
    rw [hx.loads, h.loads, List.length_append, List.length_singleton]
  · intro id hid
    have hid' : σ.node.loads + 1 ≤ id := hx.loads ▸ hid
    exact (hx.objs id (by omega)).trans (h.fresh id (by omega))
  · intro i d m hd hm
    rcases getElem?_snoc.mp hd with hd | ⟨rfl, rfl⟩
    · exact h.manager i d m hd hm
    · rw [← h.loads]
      exact hx.manager m hm
  · intro i d hd hrun
    rcases getElem?_snoc.mp hd with hd | ⟨rfl, rfl⟩
    · obtain ⟨ip, ob, hip, hob, hproxy⟩ := h.proxy i d hd hrun
      exact ⟨ip, ob, hip, (hold hd).trans hob, hproxy⟩
    · rw [← h.loads]
      exact hx.proxy hrun
  · intro i d hd hrel
    rcases getElem?_snoc.mp hd with hd | ⟨rfl, rfl⟩
    · intro ob hob
      exact h.released i d hd hrel ob ((hold hd).symm.trans hob)
    · rw [← h.loads]
      exact hx.released hrel
  · intro f hf
    rcases hx.filters f hf with hf | ⟨hrun, rfl⟩
    · obtain ⟨d, hd, hrun, hf'⟩ := h.filters f hf
      exact ⟨d, getElem?_snoc.mpr (.inl hd), hrun, hf'⟩
    · exact ⟨c, hnew, hrun, rfl⟩
  · intro l hl
    rcases hx.links l hl with hl | ⟨hrun, hprog⟩
    · obtain ⟨d, hd, hrun⟩ := h.links l hl
      exact ⟨d, getElem?_snoc.mpr (.inl hd), hrun⟩
    · refine ⟨c, ?_, hrun⟩
      show (σ.calls ++ [c])[l.prog]? = some c
      rw [hprog, hnew]

/-- A `NewManager` call that returns an error. -/
theorem Inv.error {σ : Sys} (h : Inv o ifindex σ) {cfg : Config} {plan : Plan} {e : Error}
    {x : Node} (hplan : Orderly plan) (hx : Stopped plan σ.node (.err e) x) :
    Inv o ifindex ⟨x, σ.calls ++ [⟨cfg, none, false⟩]⟩ := by
  obtain ⟨hloads, hclosed⟩ := hx.reported (by simp)
  apply h.added
  exact {
    loads := hloads
    objs := hx.objs
    manager := fun m hm => by cases hm
    proxy := fun hrun => absurd hrun.1 (by simp)
    released := fun _ => hclosed (h.fresh _ le_rfl) hplan.objsClose
    filters := fun f hf => .inl (hx.filters ▸ hf)
    links := fun l hl => .inl (hx.cgroupLinks ▸ hl) }

/-- A `NewManager` call that returns a manager. -/
theorem Inv.started {σ : Sys} (h : Inv o ifindex σ) {cfg : Config} {plan : Plan} {ip : Ip4}
    (hip : parseIP4 cfg.proxyIP = some ip) :
    Inv o ifindex ⟨afterAttach o ifindex plan cfg ip σ.node,
      σ.calls ++ [⟨cfg, some (newManagerOf ifindex cfg σ.node), false⟩]⟩ := by
  have hrunning : Running ⟨cfg, some (newManagerOf ifindex cfg σ.node), false⟩ := ⟨rfl, rfl⟩
  apply h.added
  refine ⟨rfl, ?_, ?_, ?_, ?_, ?_, ?_⟩
  · intro id hid
    exact Function.update_of_ne hid ..
  · intro m hm
    obtain rfl := Option.some.inj hm
    exact ⟨rfl, rfl⟩
  · intro _
    exact ⟨ip, servingObjects o ip cfg.proxyPort, hip, Function.update_self .., rfl⟩
  · intro hrel
    exact absurd hrel (not_released hrunning)
  · intro f hf
    rcases List.mem_append.mp hf with hf | hf
    · exact .inl hf
    · exact .inr ⟨hrunning, List.mem_singleton.mp hf⟩
  · intro l hl
    rcases List.mem_append.mp hl with hl | hl
    · exact .inl hl
    · obtain rfl := List.mem_singleton.mp hl
      exact .inr ⟨hrunning, rfl⟩

/-- What `Close` does to the node of the manager `i`, whether or not it was closed
before. -/
structure Shut (n : Node) (i : Nat) (y : Node) : Prop where
  loads : y.loads = n.loads
  objs : ∀ id, id ≠ i → y.objs id = n.objs id
  closed : y.Closed i
  filters : ∀ f ∈ y.filters, f ∈ n.filters ∧ f.prog ≠ i
  links : ∀ l ∈ y.cgroupLinks, l ∈ n.cgroupLinks ∧ l.prog ≠ i

theorem Inv.shut {σ : Sys} (h : Inv o ifindex σ) {i : Nat} {c : Managed} {m : Manager} {y : Node}
    (hc : σ.calls[i]? = some c) (hm : m.objs = i ∧ m.links = []) (hy : Shut σ.node i y) :
    Inv o ifindex ⟨y, σ.calls.set i ⟨c.cfg, some m, true⟩⟩ := by
  obtain ⟨hlt, _⟩ := List.getElem?_eq_some_iff.mp hc
  have hself : (σ.calls.set i ⟨c.cfg, some m, true⟩)[i]? = some ⟨c.cfg, some m, true⟩ :=
    List.getElem?_set_self hlt
  have hother : ∀ {j : Nat}, j ≠ i →
      (σ.calls.set i ⟨c.cfg, some m, true⟩)[j]? = σ.calls[j]? := by
    intro j hj
    exact List.getElem?_set_ne hj.symm
  refine ⟨?_, ?_, ?_, ?_, ?_, ?_, ?_⟩
  · show y.loads = (σ.calls.set i _).length
    rw [hy.loads, h.loads, List.length_set]
  · intro id hid
    have hid' : σ.node.loads ≤ id := hy.loads ▸ hid
    have := h.loads
    exact (hy.objs id (by omega)).trans (h.fresh id hid')
  · intro j d m' hd hm'
    by_cases hj : j = i
    · subst hj
      obtain rfl := Option.some.inj (hself.symm.trans hd)
      obtain rfl := Option.some.inj hm'
      exact hm
    · exact h.manager j d m' ((hother hj).symm.trans hd) hm'
  · intro j d hd hrun
    by_cases hj : j = i
    · subst hj
      obtain rfl := Option.some.inj (hself.symm.trans hd)
      exact absurd hrun.2 (by simp)
    · obtain ⟨ip, ob, hip, hob, hproxy⟩ := h.proxy j d ((hother hj).symm.trans hd) hrun
      exact ⟨ip, ob, hip, (hy.objs j hj).trans hob, hproxy⟩
  · intro j d hd hrel
    by_cases hj : j = i
    · exact hj ▸ hy.closed
    · intro ob hob
      exact h.released j d ((hother hj).symm.trans hd) hrel ob ((hy.objs j hj).symm.trans hob)
  -- what is left of filters and links belongs to other calls, which did not change
  · intro f hf
    obtain ⟨hf, hne⟩ := hy.filters f hf
    obtain ⟨d, hd, hrun, hf'⟩ := h.filters f hf
    exact ⟨d, (hother hne).trans hd, hrun, hf'⟩
  · intro l hl
    obtain ⟨hl, hne⟩ := hy.links l hl
    obtain ⟨d, hd, hrun⟩ := h.links l hl
    exact ⟨d, (hother hne).trans hd, hrun⟩

/-- `Close` on a running manager takes away exactly what carries its number; on a
closed one there is nothing left to take. -/
theorem Inv.close_run {σ : Sys} (h : Inv o ifindex σ) {i : Nat} {c : Managed} {m : Manager}
    (hc : σ.calls[i]? = some c) (hm : c.mgr = some m) :
    ∃ y, (m.close (faultPlan fun _ => none)).run σ.node = (.ok { m with links := [] }, y) ∧
      Shut σ.node i y := by
  have hplan := orderly_faultPlan fun _ => none
  obtain ⟨rfl, hlinks⟩ := h.manager i c m hc hm
  cases hclosed : c.closed with
  | true =>
      rw [hclosed, if_pos rfl] at hlinks
      have hown : ∀ d, σ.calls[m.objs]? = some d → ¬ Running d := by
        intro d hd hrun
        obtain rfl := Option.some.inj (hc.symm.trans hd)
        exact not_released hrun (.inr hclosed)
      refine ⟨σ.node.closeObjs m.objs, ?_, rfl, fun _ hid => modifyObjs_of_ne _ hid,
        closed_closeObjs σ.node m.objs, ?_, ?_⟩
      · rw [Manager.close, hlinks, closeLinks]
        simp only [pure_bind]
        rw [Prog.run_bind_of_ok (objsClose_ok hplan.objsClose m.objs σ.node)]
        rfl
      · intro f hf
        obtain ⟨d, hd, hrun, _⟩ := h.filters f hf
        exact ⟨hf, fun hi => hown d (hi ▸ hd) hrun⟩
      · intro l hl
        obtain ⟨d, hd, hrun⟩ := h.links l hl
        exact ⟨hl, fun hi => hown d (hi ▸ hd) hrun⟩
  | false =>
      rw [hclosed, if_neg (by simp)] at hlinks
      have hrun := close_ok hplan.filterDel hplan.linkClose hplan.objsClose m _ _ hlinks σ.node
      refine ⟨_, hrun, rfl, fun _ hid => modifyObjs_of_ne _ hid, closed_closeObjs _ m.objs, ?_, ?_⟩
      · intro f hf
        obtain ⟨hf, hkey⟩ := List.mem_filter.mp hf
        refine ⟨hf, fun hi => ?_⟩
        -- a filter of this manager is its own filter, and that one is gone
        obtain ⟨d, hd, _, hf'⟩ := h.filters f hf
        rw [hi] at hd hf'
        obtain rfl := Option.some.inj (hc.symm.trans hd)
        rw [hf'] at hkey
        simp [Filter.sameKey] at hkey
      · intro l hl
        obtain ⟨hl, hne⟩ := List.mem_filter.mp hl
        exact ⟨hl, by simpa using hne⟩

/-- Changes to the destinations of a manager concern nothing the invariant says. -/
theorem Inv.modify {σ : Sys} (h : Inv o ifindex σ) (i : Nat) {g : Objects → Objects}
    (hg : ∀ ob, (g ob).maps.proxyConfig = ob.maps.proxyConfig ∧ (g ob).isOpen = ob.isOpen) :
    Inv o ifindex { σ with node := σ.node.modifyObjs i g } := by
  refine ⟨h.loads, ?_, h.manager, ?_, ?_, h.filters, h.links⟩
  · intro id hid
    have hnone := h.fresh id hid
    show (σ.node.modifyObjs i g).objs id = none
    by_cases hi : id = i
    · subst hi
      rw [modifyObjs_self, hnone]
      rfl
    · rw [modifyObjs_of_ne g hi, hnone]
  · intro j c hc hrun
    obtain ⟨ip, ob, hip, hob, hproxy⟩ := h.proxy j c hc hrun
    by_cases hj : j = i
    · subst hj
      refine ⟨ip, g ob, hip, ?_, (hg ob).1.trans hproxy⟩
      show (σ.node.modifyObjs j g).objs j = _
      rw [modifyObjs_self, hob]
      rfl
    · exact ⟨ip, ob, hip, (modifyObjs_of_ne g hj).trans hob, hproxy⟩
  · intro j c hc hrel ob hob
    by_cases hj : j = i
    · subst hj
      obtain ⟨ob', hob', rfl⟩ := Option.map_eq_some_iff.mp
        ((modifyObjs_self σ.node j g).symm.trans hob)
      rw [(hg ob').2]
      exact h.released j c hc hrel ob' hob'
    · exact h.released j c hc hrel ob ((modifyObjs_of_ne g hj).symm.trans hob)

/-- Every step keeps the invariant. -/
theorem Inv.step {σ σ' : Sys} (h : Inv o ifindex σ) (e : Event)
    (hstep : step o ifindex σ e = some σ') : Inv o ifindex σ' := by
  cases e with
  | newManager cfg fault =>
      simp only [Managers.step] at hstep
      -- with at most one fault it either serves or has taken everything back
      rcases newManager_orderly (orderly_faultPlan fault) o ifindex cfg σ.node with
        ⟨ip, hip, hrun⟩ | ⟨err, x, hrun, hstop⟩
      · rw [hrun] at hstep
        obtain rfl := Option.some.inj hstep
        exact h.started hip
      · rw [hrun] at hstep
        obtain rfl := Option.some.inj hstep
        exact h.error (orderly_faultPlan fault) hstop
  | close i =>
      simp only [Managers.step] at hstep
      cases hc : σ.calls[i]? with
      | none =>
          rw [hc] at hstep
          cases hstep
      | some c =>
          obtain ⟨cfg, mgr, closed⟩ := c
          rw [hc] at hstep
          cases mgr with
          | none => cases hstep
          | some m =>
              obtain ⟨y, hrun, hy⟩ := h.close_run hc rfl
              simp only [hrun] at hstep
              obtain rfl := Option.some.inj hstep
              exact h.shut hc ⟨(h.manager i _ m hc rfl).1, rfl⟩ hy
  | connect covers call =>
      obtain rfl := Option.some.inj hstep
      -- the hook reads the maps and writes none
      exact h
  | writeDestination i d now =>
      obtain rfl := Option.some.inj hstep
      refine h.modify i fun ob => ?_
      unfold Objects.writeDestination
      split
      · exact ⟨rfl, rfl⟩
      · exact ⟨rfl, rfl⟩
  | evict i key =>
      obtain rfl := Option.some.inj hstep
      exact h.modify i fun ob => ⟨rfl, rfl⟩

/-! ## Connects -/

/-- The programs run one after the other; what they leave is what the last one
that knew the destination wrote, or what the application asked for. -/
theorem foldl_runHook {n : Node} {call : ConnectCall} {P : SockAddr → Prop}
    (links : List CgroupLink)
    (hlink : ∀ l ∈ links, ∀ ctx, runHook o n call ctx l = ctx ∨ P (runHook o n call ctx l))
    (ctx : SockAddr) :
    links.foldl (runHook o n call) ctx = ctx ∨ P (links.foldl (runHook o n call) ctx) := by
  induction links generalizing ctx with
  | nil => exact Or.inl rfl
  | cons l rest ih =>
      have hl := hlink l List.mem_cons_self ctx
      have hrest := ih (fun l' hl' => hlink l' (List.mem_cons_of_mem l hl'))
        (runHook o n call ctx l)
      rw [List.foldl_cons]
      rcases hrest with hrest | hrest
      · rw [hrest]
        exact hl
      · exact Or.inr hrest

/-- The proxy that the attached link `l` redirects to. -/
def ProxyOf (σ : Sys) (l : CgroupLink) (ip : Ip4) (port : UInt16) : Prop :=
  ∃ c, σ.calls[l.prog]? = some c ∧ Running c ∧ parseIP4 c.cfg.proxyIP = some ip ∧
    c.cfg.proxyPort = port

theorem Inv.connect4_cases {σ : Sys} (h : Inv o ifindex σ) (covers : GoString → Bool)
    (call : ConnectCall) :
    connect4 o σ.node covers call = call.ctx ∨
      ∃ l ∈ σ.node.cgroupLinks, ∃ ip port, ProxyOf σ l ip port ∧
        Holds o (connect4 o σ.node covers call) ip port := by
  refine @foldl_runHook o σ.node call (fun ctx => ∃ l ∈ σ.node.cgroupLinks, ∃ ip port,
    ProxyOf σ l ip port ∧ Holds o ctx ip port) _ ?_ call.ctx
  intro l hl ctx
  have hl := (List.mem_filter.mp hl).1
  obtain ⟨c, hc, hrun⟩ := h.links l hl
  obtain ⟨ip, ob, hip, hob, hproxy⟩ := h.proxy l.prog c hc hrun
  unfold runHook
  rw [hob]
  rcases @cgroupConnect4_ctx o ob.maps ip c.cfg.proxyPort { call with ctx := ctx } hproxy with
    hsame | hholds
  · exact Or.inl hsame
  · exact Or.inr ⟨l, hl, ip, c.cfg.proxyPort, ⟨c, hc, hrun, hip, rfl⟩, hholds⟩

/-- Nothing that carries the number `i` is attached, and its objects are closed. -/
structure Gone (n : Node) (i : Nat) : Prop where
  filters : ∀ f ∈ n.filters, f.prog ≠ i
  links : ∀ l ∈ n.cgroupLinks, l.prog ≠ i
  closed : n.Closed i

theorem Inv.gone {σ : Sys} (h : Inv o ifindex σ) {i : Nat} {c : Managed}
    (hc : σ.calls[i]? = some c) (hrel : Released c) : Gone σ.node i := by
  have hown : ∀ d, σ.calls[i]? = some d → ¬ Running d := by
    intro d hd hrun
    obtain rfl := Option.some.inj (hc.symm.trans hd)
    exact not_released hrun hrel
  refine ⟨?_, ?_, h.released i c hc hrel⟩
  · intro f hf hi
    obtain ⟨d, hd, hrun, _⟩ := h.filters f hf
    exact hown d (hi ▸ hd) hrun
  · intro l hl hi
    obtain ⟨d, hd, hrun⟩ := h.links l hl
    exact hown d (hi ▸ hd) hrun

/-! ## Whole runs -/

theorem inv_run {es : List Event} {σ : Sys}
    (hrun : run (step o ifindex) Sys.boot es = some σ) : Inv o ifindex σ :=
  run_invariant (fun _ e _ h hstep => Inv.step h e hstep) inv_boot hrun

/-- In every reachable state of every sequence of steps: an attached hook belongs
to a running manager whose proxy entry is the encoding of its configuration; a
connect is left alone or goes to the configured proxy of an attached manager; the
entry of an attached hook is all zero only when 0.0.0.0 with port 0 is what was
configured; and a manager that failed to start or was closed has left nothing
attached and nothing open. -/
theorem hooks_live_only_with_proxy (o : ByteOrder) (ifindex : GoString → Nat) (es : List Event)
    (σ : Sys) (hrun : run (step o ifindex) Sys.boot es = some σ) :
    (∀ l ∈ σ.node.cgroupLinks, ∃ c, σ.calls[l.prog]? = some c ∧ Running c ∧
      ProxyWritten o σ.node l.prog c.cfg) ∧
    (∀ covers call, connect4 o σ.node covers call = call.ctx ∨
      ∃ l ∈ σ.node.cgroupLinks, ∃ ip port, ProxyOf σ l ip port ∧
        Holds o (connect4 o σ.node covers call) ip port) ∧
    (∀ l ∈ σ.node.cgroupLinks, ∀ ob, σ.node.objs l.prog = some ob →
      ob.maps.proxyConfig = Record.zero proxyConfigT → ProxyOf σ l ⟨0, 0, 0, 0⟩ 0) ∧
    (∀ (i : Nat) c, σ.calls[i]? = some c → Released c → Gone σ.node i) := by
  have h := inv_run hrun
  refine ⟨?_, h.connect4_cases, ?_, fun i c hc hrel => h.gone hc hrel⟩
  · intro l hl
    obtain ⟨c, hc, hrunning⟩ := h.links l hl
    exact ⟨c, hc, hrunning, h.proxy l.prog c hc hrunning⟩
  · intro l hl ob hob hzero
    obtain ⟨c, hc, hrunning⟩ := h.links l hl
    obtain ⟨ip, ob', hip, hob', hproxy⟩ := h.proxy l.prog c hc hrunning
    obtain rfl := Option.some.inj (hob.symm.trans hob')
    obtain ⟨rfl, hport⟩ :=
      (proxyValue_eq_zero_iff o ip c.cfg.proxyPort).mp (hproxy.symm.trans hzero)
    exact ⟨c, hc, hrunning, hip, hport⟩

/-- Start a manager, write a destination, start a second manager on the same
interface, close the first. -/
def twoManagers : List Event :=
  [.newManager (eth0Config (ascii "10.100.0.50") 8443) (fun _ => none),
    .writeDestination 0 openaiDestination 1,
    .newManager (eth0Config (ascii "10.100.0.51") 8443) (fun _ => none),
    .close 0]

theorem hooks_live_twoManagers :
    ∃ σ c₀ c₁, run (step .little fun _ => 2) Sys.boot twoManagers = some σ ∧
      σ.calls[0]? = some c₀ ∧ σ.calls[1]? = some c₁ ∧ c₀.closed = true ∧ c₁.mgr = none ∧
      Gone σ.node 0 ∧ Gone σ.node 1 := by
  refine ⟨_, _, _, rfl, rfl, rfl, rfl, rfl, ?_, ?_⟩
  · exact (hooks_live_only_with_proxy .little (fun _ => 2) twoManagers _ rfl).2.2.2 0 _ rfl
      (.inr rfl)
  · exact (hooks_live_only_with_proxy .little (fun _ => 2) twoManagers _ rfl).2.2.2 1 _ rfl
      (.inl rfl)

/-- Nothing keeps 0.0.0.0 with port 0 from being configured: then the attached
hook redirects to the all-zero entry. -/
theorem zero_proxy_redirects :
    ∃ σ ob, run (step .little fun _ => 2) Sys.boot
        [.newManager (eth0Config (ascii "0.0.0.0") 0) (fun _ => none),
          .writeDestination 0 openaiDestination 1] = some σ ∧
      σ.node.objs 0 = some ob ∧ ob.maps.proxyConfig = Record.zero proxyConfigT ∧
      connect4 .little σ.node (fun _ => true) (curlConnect .little openaiDestination.ip4 1 6) =
        ⟨0, 0, 1, 6⟩ ∧
      (curlConnect .little openaiDestination.ip4 1 6).ctx ≠ ⟨0, 0, 1, 6⟩ :=
  ⟨_, _, rfl, rfl, rfl, rfl, by decide⟩

end AiInterceptor.Theorems.LiveHooks
