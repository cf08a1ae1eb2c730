import AiInterceptor.Agent.Serve
import AiInterceptor.Logic.Manager
import AiInterceptor.Theorems.EndToEnd

/-!
# Serving and shutting down

Whatever the readers are doing when the signal, a kill or a fatal error comes, the
process leaves a node that a lifetime of `main` leaves under some outcome of its calls
(`shutdown_refines`), and `main` never has to wait for them. Up to the last step the
maps, the redirect ring and the log are those of a run of the pipeline: all that the
shutdown drops are the DNS messages that are read, and the writes that are made, after
the maps are closed (`served_refines`).
-/

namespace AiInterceptor.Theorems.Shutdown

open Lib Bpf Go Agent Agent.Serve

/-! ## The calls of `Close` -/

/-- The calls of `NewManager`. -/
def startup : List Call :=
  [.load, .proxyUpdate, .interfaceByName, .qdiscAdd, .filterAdd, .attachCgroup]

/-- The plans agree on how the process starts. -/
def Agrees (p plan : Plan) : Prop := ∀ c ∈ startup, p c = plan c

/-- The call that closes a link. -/
def callOf : Link → Call
  | .tc _ => .filterDel
  | .cgroup _ => .linkClose

section Close

variable {p q plan : Plan} {x y : Node}

theorem Agrees.update (h : Agrees p plan) {c : Call} (hc : c ∉ startup) (v : Verdict) :
    Agrees (Function.update p c v) plan := by
  intro c' hc'
  have hne : c' ≠ c := fun heq => hc (heq ▸ hc')
  rw [Function.update_of_ne hne]
  exact h c' hc'

theorem callOf_cases (l : Link) : callOf l = .filterDel ∨ callOf l = .linkClose := by
  cases l with
  | tc f => exact .inl rfl
  | cgroup c => exact .inr rfl

theorem callOf_notMem (l : Link) : callOf l ∉ startup := by
  rcases callOf_cases l with h | h
  · rw [h]
    decide
  · rw [h]
    decide

theorem callOf_ne (l : Link) : callOf l ≠ .serve ∧ callOf l ≠ .objsClose := by
  rcases callOf_cases l with h | h
  · rw [h]
    decide
  · rw [h]
    decide

theorem closeLink_congr {l : Link} (h : p (callOf l) = q (callOf l)) :
    closeLink p l = closeLink q l := by
  cases l with
  | tc f =>
      have hcall : p .filterDel = q .filterDel := h
      rw [closeLink, closeLink, syscall, syscall, hcall]
  | cgroup c =>
      have hcall : p .linkClose = q .linkClose := h
      rw [closeLink, closeLink, syscall, syscall, hcall]

theorem closeLinks_congr {links : List Link} (h : ∀ l ∈ links, p (callOf l) = q (callOf l)) :
    closeLinks p links = closeLinks q links := by
  induction links with
  | nil => rfl
  | cons l rest ih =>
      rw [closeLinks, closeLinks, closeLink_congr (h l List.mem_cons_self),
        ih fun l' hl' => h l' (List.mem_cons_of_mem l hl')]

theorem closeLinks_append (p : Plan) (a b : List Link) :
    closeLinks p (a ++ b) = closeLinks p a >>= fun _ => closeLinks p b := by
  induction a with
  | nil => exact (pure_bind () fun _ => closeLinks p b).symm
  | cons l rest ih =>
      rw [List.cons_append, closeLinks, closeLinks, ih, bind_assoc]

theorem closeLinks_update {links : List Link} {c : Call} (h : ∀ l ∈ links, callOf l ≠ c)
    (p : Plan) (v : Verdict) : closeLinks (Function.update p c v) links = closeLinks p links :=
  closeLinks_congr fun l hl => Function.update_of_ne (h l hl) ..

/-- The links in front of one are closed by other calls. -/
theorem earlier_calls {done rest : List Link} {l : Link}
    (h : ((done ++ l :: rest).map callOf).Nodup) : ∀ l' ∈ done, callOf l' ≠ callOf l := by
  rw [List.map_append, List.map_cons] at h
  intro l' hl' heq
  exact List.disjoint_of_nodup_append h (List.mem_map_of_mem hl')
    (by rw [heq]; exact List.mem_cons_self)

/-- A link that is not closed is left as it is. -/
theorem closeLink_verdict (failed : Option Errno) (l : Link) (y : Node) :
    (closeLink (fun _ => verdict failed) l).run y =
      (.ok (), ((closeLink (fun _ => verdict failed) l).run y).2) := by
  cases failed with
  | none =>
      cases l with
      | tc f => rfl
      | cgroup c => rfl
  | some e =>
      cases l with
      | tc f => rfl
      | cgroup c => rfl

theorem closeLink_killed {l : Link} (h : p (callOf l) = .kill) (y : Node) :
    (closeLink p l).run y = (.killed, y) := by
  cases l with
  | tc f =>
      have hcall : p .filterDel = .kill := h
      rw [closeLink, syscall_kill hcall]
      rfl
  | cgroup c =>
      have hcall : p .linkClose = .kill := h
      rw [closeLink, syscall_kill hcall]
      rfl

theorem objsClose_verdict (failed : Option Errno) (id : Nat) (y : Node) :
    (objsClose (fun _ => verdict failed) id).run y =
      (.ok (), ((objsClose (fun _ => verdict failed) id).run y).2) := by
  cases failed with
  | none => rfl
  | some e => rfl

theorem objsClose_congr (h : p .objsClose = q .objsClose) (id : Nat) :
    objsClose p id = objsClose q id := by
  rw [objsClose, objsClose, syscall, syscall, h]

end Close

/-! ## The node along a run -/

section Node

variable {o : ByteOrder} {ifindex : GoString → Nat} {plan p : Plan} {cfg : Config} {n x : Node}
  {m : Manager}

/-- How a started process starts depends on the startup calls only. -/
theorem newManager_agrees (hstart : (newManager o ifindex plan cfg).run n = (.ok m, x))
    (h : Agrees p plan) : (newManager o ifindex p cfg).run n = (.ok m, x) := by
  have hstop := @newManager_stopped o ifindex plan cfg n
  unfold Prog.wp at hstop
  rw [hstart] at hstop
  rcases hstop with hinst | hstop
  · obtain ⟨ip, hip, rfl, rfl⟩ := newManager_succeeded hstart
    have hcg : plan .attachCgroup = .ok := by
      cases hcg : plan .attachCgroup with
      | ok => rfl
      | fail e =>
          have hpair := hstart.symm.trans (newManager_undone hinst hip hcg)
          split at hpair <;> simp at hpair
      | kill =>
          have hpair := hstart.symm.trans (newManager_killed hinst hip hcg)
          simp at hpair
    have hqdisc : p .qdiscAdd = plan .qdiscAdd := h _ (by decide)
    have hinst' : FilterInstalled ifindex p cfg n := by
      refine ⟨?_, hinst.proxyIP, ?_, ?_, ?_, ?_, hinst.free⟩
      · rw [h _ (by decide), hinst.load]
      · rw [h _ (by decide), hinst.proxyUpdate]
      · rw [h _ (by decide), hinst.interfaceByName]
      · rw [hqdisc]
        exact hinst.qdiscAdd
      · rw [h _ (by decide), hinst.filterAdd]
    have hcg' : p .attachCgroup = .ok := by rw [h _ (by decide), hcg]
    rw [newManager_ok hinst' hip hcg', afterAttach, afterAttach, afterFilter, afterFilter, hqdisc]
  · exact absurd rfl (hstop.noManager m)

/-- The manager's two links are closed by different calls. -/
theorem links_calls (hstart : (newManager o ifindex plan cfg).run n = (.ok m, x)) :
    m.objs = n.loads ∧ (m.links.map callOf).Nodup := by
  obtain ⟨ip, _, rfl, _⟩ := newManager_succeeded hstart
  refine ⟨rfl, ?_⟩
  show [Call.filterDel, Call.linkClose].Nodup
  decide

/-- What `main` has done to the node: nothing, some or all of `Close` under a plan that
starts the process the same way, or a whole lifetime under one. -/
def Reached (o : ByteOrder) (ifindex : GoString → Nat) (plan : Plan) (cfg : Config) (n x : Node)
    (m : Manager) (node : Node) : Stage → Prop
  | .waiting => node = x
  | .closing rest => ∃ done p, m.links = done ++ rest ∧ Agrees p plan ∧ p .serve = .ok ∧
      (closeLinks p done).run x = (.ok (), node)
  | .closed => ∃ p, Agrees p plan ∧ p .serve = .ok ∧ ((m.close p).run x).2 = node
  | .gone => ∃ p, Agrees p plan ∧ node = Agent.main o ifindex ⟨cfg, p⟩ n

/-- A lifetime that gets to serve, by how its `serve` ends. -/
theorem main_served (hstart : (newManager o ifindex plan cfg).run n = (.ok m, x))
    (h : Agrees p plan) (hserve : p .serve = .ok) :
    Agent.main o ifindex ⟨cfg, p⟩ n = Agent.exit m.objs ((m.close p).run x).2 := by
  unfold Agent.main
  rw [newManager_agrees hstart h, (links_calls hstart).1]
  simp only [hserve]

theorem main_cut (hstart : (newManager o ifindex plan cfg).run n = (.ok m, x))
    (h : Agrees p plan) (hserve : p .serve = .kill) :
    Agent.main o ifindex ⟨cfg, p⟩ n = Agent.exit m.objs x := by
  unfold Agent.main
  rw [newManager_agrees hstart h, (links_calls hstart).1]
  simp only [hserve]

/-- Every lifetime ends with the end of a process, whatever it got to. -/
theorem main_exits (o : ByteOrder) (ifindex : GoString → Nat) (l : Lifetime) (n : Node) :
    ∃ y, Agent.main o ifindex l n = Agent.exit n.loads y := by
  unfold Agent.main
  cases (newManager o ifindex l.plan l.cfg).run n with
  | mk out y =>
      cases out with
      | err e => exact ⟨y, rfl⟩
      | killed => exact ⟨y, rfl⟩
      | ok m =>
          cases l.plan .serve with
          | ok => exact ⟨_, rfl⟩
          | fail e => exact ⟨y, rfl⟩
          | kill => exact ⟨y, rfl⟩

/-- A process takes its cgroup link with it. -/
theorem exit_links (first : Nat) (y : Node) :
    ¬ (Agent.exit first y).cgroupLinks.any (·.prog = first) = true := by
  rw [List.any_eq_true]
  rintro ⟨l, hl, hprog⟩
  have hlt : l.prog < first := of_decide_eq_true (List.mem_filter.mp hl).2
  have heq : l.prog = first := of_decide_eq_true hprog
  omega

/-- A `Close` that is cut short by a kill. -/
theorem close_cut {done rest : List Link} {l : Link} {node : Node}
    (hlinks : m.links = done ++ l :: rest) (hdone : (closeLinks p done).run x = (.ok (), node))
    (hkill : p (callOf l) = .kill) : (m.close p).run x = (.killed, node) := by
  have hlinks' : (closeLinks p m.links).run x = (.killed, node) := by
    rw [hlinks, closeLinks_append, Prog.run_bind_of_ok hdone, closeLinks, Prog.run_bind,
      closeLink_killed hkill]
  rw [Manager.close, Prog.run_bind, hlinks']

theorem close_cut_objs {node : Node} (hdone : (closeLinks p m.links).run x = (.ok (), node))
    (hkill : p .objsClose = .kill) : (m.close p).run x = (.killed, node) := by
  rw [Manager.close, Prog.run_bind_of_ok hdone, Prog.run_bind, objsClose, syscall_kill hkill]
  rfl

/-- The process can end anywhere. -/
theorem Reached.die {stage : Stage} {node : Node}
    (hstart : (newManager o ifindex plan cfg).run n = (.ok m, x)) (hstage : stage ≠ .gone)
    (h : Reached o ifindex plan cfg n x m node stage) :
    Reached o ifindex plan cfg n x m (Agent.exit m.objs node) .gone := by
  obtain ⟨_, hnodup⟩ := links_calls hstart
  cases stage with
  | gone => exact absurd rfl hstage
  | waiting =>
      obtain rfl : node = x := h
      have hagrees : Agrees (Function.update plan .serve .kill) plan :=
        Agrees.update (fun _ _ => rfl) (by decide) _
      exact ⟨_, hagrees, (main_cut hstart hagrees (Function.update_self ..)).symm⟩
  | closed =>
      obtain ⟨p, hagrees, hserve, rfl⟩ := h
      exact ⟨p, hagrees, (main_served hstart hagrees hserve).symm⟩
  | closing rest =>
      obtain ⟨done, p, hlinks, hagrees, hserve, hdone⟩ := h
      cases rest with
      | nil =>
          rw [List.append_nil] at hlinks
          subst hlinks
          have hagrees' := hagrees.update (c := .objsClose) (by decide) .kill
          have hdone' := hdone
          rw [← closeLinks_update (fun l _ => (callOf_ne l).2) p .kill] at hdone'
          have hcut := close_cut_objs hdone' (Function.update_self ..)
          refine ⟨_, hagrees', ?_⟩
          rw [main_served hstart hagrees' ((Function.update_of_ne (by decide) ..).trans hserve),
            hcut]
      | cons l rest =>
          rw [hlinks] at hnodup
          have hagrees' := hagrees.update (callOf_notMem l) .kill
          have hdone' := hdone
          rw [← closeLinks_update (earlier_calls hnodup) p .kill] at hdone'
          have hcut := close_cut hlinks hdone' (Function.update_self ..)
          refine ⟨_, hagrees', ?_⟩
          rw [main_served hstart hagrees'
            ((Function.update_of_ne (Ne.symm (callOf_ne l).1) ..).trans hserve), hcut]

/-- The next call of `Close`. -/
theorem Reached.close {rest : List Link} {l : Link} {node : Node} (failed : Option Errno)
    (hstart : (newManager o ifindex plan cfg).run n = (.ok m, x))
    (h : Reached o ifindex plan cfg n x m node (.closing (l :: rest))) :
    Reached o ifindex plan cfg n x m ((closeLink (fun _ => verdict failed) l).run node).2
      (.closing rest) := by
  obtain ⟨_, hnodup⟩ := links_calls hstart
  obtain ⟨done, p, hlinks, hagrees, hserve, hdone⟩ := h
  rw [hlinks] at hnodup
  refine ⟨done ++ [l], Function.update p (callOf l) (verdict failed), ?_,
    hagrees.update (callOf_notMem l) _, ?_, ?_⟩
  · rw [hlinks, List.append_assoc]
    rfl
  · rw [Function.update_of_ne (Ne.symm (callOf_ne l).1), hserve]
  · have hcall : closeLink (Function.update p (callOf l) (verdict failed)) l =
        closeLink (fun _ => verdict failed) l := closeLink_congr (Function.update_self ..)
    rw [← closeLinks_update (earlier_calls hnodup) p (verdict failed)] at hdone
    rw [closeLinks_append, Prog.run_bind_of_ok hdone, closeLinks, hcall,
      Prog.run_bind_of_ok (closeLink_verdict failed l node)]
    rfl

theorem Reached.closeObjs {node : Node} (failed : Option Errno)
    (h : Reached o ifindex plan cfg n x m node (.closing [])) :
    Reached o ifindex plan cfg n x m ((objsClose (fun _ => verdict failed) m.objs).run node).2
      .closed := by
  obtain ⟨done, p, hlinks, hagrees, hserve, hdone⟩ := h
  rw [List.append_nil] at hlinks
  subst hlinks
  refine ⟨Function.update p .objsClose (verdict failed), hagrees.update (by decide) _, ?_, ?_⟩
  · rw [Function.update_of_ne (by decide), hserve]
  · have hcall : objsClose (Function.update p .objsClose (verdict failed)) m.objs =
        objsClose (fun _ => verdict failed) m.objs := by
      refine objsClose_congr ?_ m.objs
      exact Function.update_self ..
    rw [← closeLinks_update (fun l _ => (callOf_ne l).2) p (verdict failed)] at hdone
    rw [Manager.close, Prog.run_bind_of_ok hdone, hcall,
      Prog.run_bind_of_ok (objsClose_verdict failed m.objs node)]
    rfl

theorem Reached.step {ε : Type} {unpack : List UInt8 → Except ε (List RR)} {σ σ' : Serve.State}
    {ev : Serve.Event} (hstart : (newManager o ifindex plan cfg).run n = (.ok m, x))
    (h : Reached o ifindex plan cfg n x m σ.node σ.stage)
    (hstep : Serve.step o m unpack σ ev = some σ') :
    Reached o ifindex plan cfg n x m σ'.node σ'.stage := by
  rcases step_node hstep with ⟨hnode, hstage⟩ | ⟨hgone, hnode, hstage⟩ |
    ⟨hwaiting, hnode, hstage⟩ | ⟨l, rest, failed, hclosing, hstage, hnode⟩ |
    ⟨failed, hclosing, hstage, hnode⟩
  · rw [hnode, hstage]
    exact h
  · rw [hnode, hstage]
    exact h.die hstart hgone
  · rw [hwaiting] at h
    rw [hnode, hstage]
    refine ⟨[], Function.update plan .serve .ok, rfl, Agrees.update (fun _ _ => rfl) (by decide) _,
      Function.update_self .., ?_⟩
    rw [show σ.node = x from h]
    rfl
  · rw [hclosing] at h
    rw [hnode, hstage]
    exact h.close failed hstart
  · rw [hclosing] at h
    rw [hnode, hstage]
    exact h.closeObjs failed

theorem reached_run {ε : Type} {unpack : List UInt8 → Except ε (List RR)} {maps : Maps}
    {es : List Serve.Event} {σ : Serve.State}
    (hstart : (newManager o ifindex plan cfg).run n = (.ok m, x))
    (hrun : run (Serve.step o m unpack) (Serve.start x maps) es = some σ) :
    Reached o ifindex plan cfg n x m σ.node σ.stage := by
  have hinit : Reached o ifindex plan cfg n x m (Serve.start x maps).node
      (Serve.start x maps).stage := rfl
  exact run_invariant (P := fun τ => Reached o ifindex plan cfg n x m τ.node τ.stage)
    (fun _ _ _ h hstep => h.step hstart hstep) hinit hrun

end Node

/-! ## `main` waits for nobody -/

section Ends

variable {o : ByteOrder} {m : Manager} {ε : Type} {unpack : List UInt8 → Except ε (List RR)}

/-- A step that `main` takes on its own. -/
def OfMain (e : Serve.Event) : Prop := e = .proceed ∨ e = .close none ∨ e = .exit

theorem closing_ends {σ : Serve.State} {rest : List Link} (h : σ.stage = .closing rest) :
    ∃ es σ', (∀ e ∈ es, OfMain e) ∧ run (Serve.step o m unpack) σ es = some σ' ∧
      σ'.stage = .gone := by
  induction rest generalizing σ with
  | nil =>
      have hclose : Serve.step o m unpack σ (.close none) =
          some { σ with node := ((objsClose (fun _ => verdict none) m.objs).run σ.node).2
                        stage := .closed } := by
        simp only [Serve.step, closeStep, h]
      refine ⟨[.close none, .exit], _, ?_, run_cons.mpr ⟨_, hclose, run_cons.mpr ⟨_, rfl, rfl⟩⟩,
        rfl⟩
      intro e he
      rcases List.mem_pair.mp he with rfl | rfl
      · exact .inr (.inl rfl)
      · exact .inr (.inr rfl)
  | cons l rest ih =>
      have hclose : Serve.step o m unpack σ (.close none) =
          some { σ with node := ((closeLink (fun _ => verdict none) l).run σ.node).2
                        stage := .closing rest } := by
        simp only [Serve.step, closeStep, h]
      obtain ⟨es, σ', hes, hrun, hgone⟩ := ih (σ := { σ with
        node := ((closeLink (fun _ => verdict none) l).run σ.node).2, stage := .closing rest }) rfl
      refine ⟨.close none :: es, σ', ?_, run_cons.mpr ⟨_, hclose, hrun⟩, hgone⟩
      intro e he
      rcases List.mem_cons.mp he with rfl | he
      · exact .inr (.inl rfl)
      · exact hes e he

/-- After the signal `main` can always finish by itself. -/
theorem main_ends {σ : Serve.State} (h : σ.cancelled = true) :
    ∃ es σ', (∀ e ∈ es, OfMain e) ∧ run (Serve.step o m unpack) σ es = some σ' ∧
      σ'.stage = .gone := by
  cases hstage : σ.stage with
  | gone => exact ⟨[], σ, fun e he => absurd he List.not_mem_nil, rfl, hstage⟩
  | closing rest => exact closing_ends hstage
  | closed =>
      refine ⟨[.exit], die m σ, ?_, run_cons.mpr ⟨_, if_pos hstage, rfl⟩, rfl⟩
      intro e he
      exact .inr (.inr (List.mem_singleton.mp he))
  | waiting =>
      have hproceed : Serve.step o m unpack σ .proceed =
          some { σ with stage := .closing m.links } := if_pos ⟨hstage, h⟩
      obtain ⟨es, σ', hes, hrun, hgone⟩ :=
        @closing_ends o m ε unpack { σ with stage := .closing m.links } _ rfl
      refine ⟨.proceed :: es, σ', ?_, run_cons.mpr ⟨_, hproceed, hrun⟩, hgone⟩
      intro e he
      rcases List.mem_cons.mp he with rfl | he
      · exact .inl rfl
      · exact hes e he

end Ends

/-! ## The data plane of a serving agent -/

section Plane

variable {o : ByteOrder} {m : Manager} {ε : Type} {unpack : List UInt8 → Except ε (List RR)}
  {σ σ' : Serve.State}

/-- The steps of the data plane that take effect: a message that is read and a write
that is made after the maps are closed do not. -/
def effective (m : Manager) (σ : Serve.State) : Serve.Event → List Pipeline.Event
  | .plane .readDns => if isOpen m σ then [.readDns] else []
  | .plane (.write now) => if isOpen m σ then [.write now] else []
  | .plane e => [e]
  | _ => []

/-- The same maps, redirect ring and log; all the same while the maps are open. -/
structure Tracks (m : Manager) (σ : Serve.State) (τ : Pipeline.State) : Prop where
  maps : τ.maps = σ.plane.maps
  ring : τ.ring = σ.plane.ring
  log : τ.log = σ.plane.log
  alive : σ.stage ≠ .gone → τ.panicked = false
  whole : isOpen m σ = true → τ = σ.plane

theorem isOpen_exit (σ : Serve.State) : isOpen m (die m σ) = false := by
  unfold isOpen die Agent.exit
  simp only [Nat.le_refl, if_true]
  cases σ.node.objs m.objs with
  | none => rfl
  | some ob => rfl

/-- Closed maps stay closed. -/
theorem isOpen_step {ev : Serve.Event} (hstep : Serve.step o m unpack σ ev = some σ')
    (h : isOpen m σ' = true) : isOpen m σ = true := by
  have hsame : ∀ {y : Node}, y.objs m.objs = σ.node.objs m.objs → σ'.node = y →
      isOpen m σ = true := by
    intro y hy hnode
    unfold isOpen at h ⊢
    rw [hnode, hy] at h
    exact h
  rcases step_node hstep with ⟨hnode, _⟩ | ⟨_, hnode, _⟩ | ⟨_, hnode, _⟩ |
    ⟨l, rest, failed, _, _, hnode⟩ | ⟨failed, _, _, hnode⟩
  · exact hsame rfl hnode
  · have hclosed := @isOpen_exit m σ
    unfold isOpen at h hclosed
    rw [hnode] at h
    exact absurd (hclosed.symm.trans h) (by simp)
  · exact hsame rfl hnode
  · refine hsame ?_ hnode
    cases failed with
    | none =>
        cases l with
        | tc f => rfl
        | cgroup c => rfl
    | some e =>
        cases l with
        | tc f => rfl
        | cgroup c => rfl
  · cases failed with
    | some e => exact hsame rfl hnode
    | none =>
        have hobjs : σ'.node = σ.node.closeObjs m.objs := hnode
        unfold isOpen at h
        rw [hobjs] at h
        cases hob : (σ.node.closeObjs m.objs).objs m.objs with
        | none =>
            rw [hob] at h
            cases h
        | some ob =>
            rw [hob] at h
            exact absurd (h.symm.trans (closed_closeObjs _ _ ob hob)) (by simp)

/-- Steps that leave the data plane alone. -/
theorem Tracks.quiet {ev : Serve.Event} {τ : Pipeline.State} (h : Tracks m σ τ)
    (hstep : Serve.step o m unpack σ ev = some σ') (hplane : σ'.plane = σ.plane) :
    Tracks m σ' τ := by
  refine ⟨?_, ?_, ?_, ?_, ?_⟩
  · rw [hplane]
    exact h.maps
  · rw [hplane]
    exact h.ring
  · rw [hplane]
    exact h.log
  · intro hstage
    refine h.alive ?_
    rcases step_node hstep with ⟨_, hsame⟩ | ⟨hgone, _⟩ | ⟨hwaiting, _⟩ |
      ⟨l, rest, failed, hclosing, _⟩ | ⟨failed, hclosing, _⟩
    · rw [hsame] at hstage
      exact hstage
    · exact hgone
    · rw [hwaiting]
      simp
    · rw [hclosing]
      simp
    · rw [hclosing]
      simp
  · intro hopen
    rw [hplane]
    exact h.whole (isOpen_step hstep hopen)

theorem tracks_closed {τ : Pipeline.State} (hclosed : isOpen m σ = false)
    (hmaps : τ.maps = σ.plane.maps) (hring : τ.ring = σ.plane.ring) (hlog : τ.log = σ.plane.log)
    (halive : σ.stage ≠ .gone → τ.panicked = false) : Tracks m σ τ := by
  refine ⟨hmaps, hring, hlog, halive, ?_⟩
  intro hopen
  exact absurd (hclosed.symm.trans hopen) (by simp)

/-- The DNS reader leaves the rest alone when it takes a sample. -/
theorem takeSample_rest (o : ByteOrder) (svc : Service) (unpack : List UInt8 → Except ε (List RR))
    (ρ : Pipeline.State) (sample : List UInt8) :
    (Pipeline.takeSample o svc unpack ρ sample).maps = ρ.maps ∧
      (Pipeline.takeSample o svc unpack ρ sample).ring = ρ.ring ∧
      (Pipeline.takeSample o svc unpack ρ sample).log = ρ.log := by
  unfold Pipeline.takeSample
  cases readDnsEvent o sample with
  | skip | process msg | panic => exact ⟨rfl, rfl, rfl⟩

theorem effective_open (h : isOpen m σ = true) (e : Pipeline.Event) :
    effective m σ (.plane e) = [e] := by
  cases e with
  | frame skb slot | evict key | connect call | readRedirect => rfl
  | readDns => exact if_pos h
  | write now => exact if_pos h

/-- A step of the data plane, answered by the pipeline if it takes effect. -/
theorem Tracks.plane {e : Pipeline.Event} {τ : Pipeline.State} (h : Tracks m σ τ)
    (hstep : Serve.step o m unpack σ (.plane e) = some σ') :
    ∃ τ', run (Pipeline.step o m.dnsSvc unpack) τ (effective m σ (.plane e)) = some τ' ∧
      Tracks m σ' τ' := by
  obtain ⟨hadmits, ⟨now, d, rest, rfl, hclosed, _, rfl⟩ | ⟨hwrite, plane, hplane, hend⟩⟩ :=
    step_plane hstep
  · -- the write fails
    have hnone : effective m σ (.plane (.write now)) = [] := if_neg (by rw [hclosed]; simp)
    rw [hnone]
    refine ⟨τ, rfl, h.maps, h.ring, h.log, h.alive, ?_⟩
    intro hopen
    exact absurd (hclosed.symm.trans hopen) (by simp)
  · have hafter : σ'.plane = plane ∧
        (σ'.stage ≠ .gone → plane.panicked = false ∧ σ.stage ≠ .gone) := by
      rcases hend with ⟨_, _, rfl⟩ | ⟨hcalm, rfl⟩
      · exact ⟨rfl, fun hgone => absurd rfl hgone⟩
      · exact ⟨rfl, fun hgone => ⟨hcalm.resolve_right hgone, hgone⟩⟩
    obtain ⟨rfl, hgone⟩ := hafter
    cases hopen : isOpen m σ with
    | true =>
        rw [effective_open hopen]
        obtain rfl := h.whole hopen
        exact ⟨_, run_cons.mpr ⟨_, hplane, rfl⟩, rfl, rfl, rfl, fun hg => (hgone hg).1,
          fun _ => rfl⟩
    | false =>
        have hclosed : isOpen m σ' = false := by
          cases hopen' : isOpen m σ' with
          | false => rfl
          | true => exact absurd (hopen.symm.trans (isOpen_step hstep hopen')) (by simp)
        have hstays : σ'.stage ≠ .gone → τ.panicked = false := fun hg => h.alive (hgone hg).2
        cases e with
        | write now => exact absurd (hopen.symm.trans (hwrite now rfl)) (by simp)
        | readDns =>
            have hnone : effective m σ (.plane .readDns) = [] := if_neg (by rw [hopen]; simp)
            obtain ⟨sample, rest, _, _, _, hp⟩ := Pipeline.step_readDns hplane
            obtain ⟨hmaps, hring, hlog⟩ :=
              takeSample_rest o m.dnsSvc unpack { σ.plane with dnsRing := rest } sample
            rw [← hp] at hmaps hring hlog
            rw [hnone]
            exact ⟨τ, rfl, tracks_closed hclosed (h.maps.trans hmaps.symm)
              (h.ring.trans hring.symm) (h.log.trans hlog.symm) hstays⟩
        | frame skb slot =>
            have hp := Pipeline.step_frame hplane
            refine ⟨_, run_cons.mpr ⟨_, rfl, rfl⟩, tracks_closed hclosed ?_ ?_ ?_ hstays⟩
            · rw [hp]
              exact h.maps
            · rw [hp]
              exact h.ring
            · rw [hp]
              exact h.log
        | evict key =>
            have hp := Pipeline.step_evict hplane
            refine ⟨_, run_cons.mpr ⟨_, rfl, rfl⟩, tracks_closed hclosed ?_ ?_ ?_ hstays⟩
            · rw [hp, h.maps]
            · rw [hp]
              exact h.ring
            · rw [hp]
              exact h.log
        | connect call =>
            have hp := Pipeline.step_connect hplane
            refine ⟨_, run_cons.mpr ⟨_, rfl, rfl⟩, tracks_closed hclosed ?_ ?_ ?_ hstays⟩
            · rw [hp]
              exact h.maps
            · rw [hp, h.maps, h.ring]
            · rw [hp]
              exact h.log
        | readRedirect =>
            obtain ⟨sample, rest, _, hring, hp⟩ := Pipeline.step_readRedirect hplane
            -- whoever reads is alive
            have hstage : σ.stage ≠ .gone := (of_decide_eq_true hadmits).1
            have hread : Pipeline.step o m.dnsSvc unpack τ .readRedirect = some
                { τ with ring := rest, log := τ.log ++ (readRedirectEvent o sample).toList } := by
              simp only [Pipeline.step, h.alive hstage, h.ring, hring]
            refine ⟨_, run_cons.mpr ⟨_, hread, rfl⟩, tracks_closed hclosed ?_ ?_ ?_ hstays⟩
            · rw [hp]
              exact h.maps
            · rw [hp]
            · rw [hp, h.log]

theorem serve_simulates : Simulates (Serve.step o m unpack) (effective m)
    (Pipeline.step o m.dnsSvc unpack) (fun e => [e]) (Tracks m) := by
  refine ⟨?_⟩
  intro σ τ ev σ' h hstep
  by_cases hev : ∃ e, ev = .plane e
  · obtain ⟨e, rfl⟩ := hev
    obtain ⟨τ', hrun, htracks⟩ := h.plane hstep
    exact ⟨_, τ', hrun, htracks, List.flatMap_singleton' _⟩
  · have hquiet : ∀ e, ev ≠ .plane e := fun e he => hev ⟨e, he⟩
    refine ⟨[], τ, rfl, h.quiet hstep (step_quiet hstep hquiet), ?_⟩
    cases ev with
    | plane e => exact absurd rfl (hquiet e)
    | signal | newReader r ok | watch r | readerReturn r | proceed | close failed | exit | kill =>
        rfl

/-- The effective steps are a run of the pipeline. -/
theorem tracks_run {x : Node} {maps : Maps} {es : List Serve.Event}
    (hrun : run (Serve.step o m unpack) (Serve.start x maps) es = some σ) :
    ∃ τ, run (Pipeline.step o m.dnsSvc unpack) (Pipeline.start maps)
        (trace (Serve.step o m unpack) (effective m) (Serve.start x maps) es) = some τ ∧
      Tracks m σ τ := by
  have hinit : Tracks m (Serve.start x maps) (Pipeline.start maps) :=
    ⟨rfl, rfl, rfl, fun _ => rfl, fun _ => rfl⟩
  obtain ⟨fs, τ, hfs, htracks, hshow⟩ := serve_simulates.run hinit hrun
  rw [List.flatMap_singleton'] at hshow
  rw [← hshow]
  exact ⟨τ, hfs, htracks⟩

end Plane

/-- **Every end of the process is an end of `main`.** In every interleaving of the
goroutines, the signal, fatal errors and kills, a process that is gone has left the
node as a lifetime of `main` leaves it, started the same way and ended under some
outcome of its close calls, and redirects nothing any more; and from every state after
the signal `main` gets to the end on its own, whatever the readers do. -/
theorem shutdown_refines (o : ByteOrder) (ifindex : GoString → Nat) (plan : Plan) (cfg : Config)
    (n x : Node) (m : Manager) {ε : Type} (unpack : List UInt8 → Except ε (List RR))
    (hstart : (newManager o ifindex plan cfg).run n = (.ok m, x)) (maps : Maps)
    (es : List Serve.Event) (σ : Serve.State)
    (hrun : run (Serve.step o m unpack) (Serve.start x maps) es = some σ) :
    (σ.stage = .gone → (∃ p, Agrees p plan ∧ σ.node = Agent.main o ifindex ⟨cfg, p⟩ n) ∧
      ∀ call, Serve.step o m unpack σ (.plane (.connect call)) = none) ∧
      (σ.cancelled = true → ∃ es' σ', (∀ e ∈ es', OfMain e) ∧
        run (Serve.step o m unpack) σ es' = some σ' ∧ σ'.stage = .gone) := by
  refine ⟨?_, main_ends⟩
  intro hgone
  have hreached := reached_run hstart hrun
  rw [hgone] at hreached
  refine ⟨hreached, ?_⟩
  intro call
  obtain ⟨p, _, hnode⟩ := hreached
  obtain ⟨y, hmain⟩ := main_exits o ifindex ⟨cfg, p⟩ n
  refine if_neg ?_
  show ¬ σ.node.cgroupLinks.any _ = true
  rw [hnode, hmain, (links_calls hstart).1]
  exact exit_links n.loads y

/-- A first start, the signal, and what `main` does then. -/
theorem shutdown_refines_signal :
    ∃ m x es σ, (newManager .little (fun _ => 2) (fun _ => .ok) agentConfig).run Node.boot =
        (.ok m, x) ∧
      run (Serve.step .little m Capture.openaiUnpack) (Serve.start x Maps.empty) es = some σ ∧
      ∃ p, Agrees p (fun _ => .ok) ∧
        σ.node = Agent.main .little (fun _ => 2) ⟨agentConfig, p⟩ Node.boot := by
  have hstart := Interception.agent_starts
  have hsignal : run (Serve.step .little (newManagerOf (fun _ => 2) agentConfig Node.boot)
      Capture.openaiUnpack) (Serve.start (afterAttach .little (fun _ => 2) (fun _ => .ok)
        agentConfig ⟨10, 100, 0, 50⟩ Node.boot) Maps.empty) [.signal] = some _ := rfl
  obtain ⟨es, σ, _, hends, hgone⟩ :=
    (shutdown_refines _ _ _ _ _ _ _ _ hstart Maps.empty _ _ hsignal).2 rfl
  have hall := run_append.mpr ⟨_, hsignal, hends⟩
  exact ⟨_, _, _, σ, hstart, hall,
    ((shutdown_refines _ _ _ _ _ _ _ _ hstart Maps.empty _ _ hall).1 hgone).1⟩

/-- **Serving and shutting down, the agent is its pipeline.** After a successful start,
in every interleaving up to and after the end of the process, the maps, the redirect
ring and the log are those of the run of the pipeline that the effective steps make,
and all of its state is as long as the maps are open. So whenever the process ends, the
redirects are in the log, in order, up to the ones that are left in the ring. -/
theorem served_refines (o : ByteOrder) (ifindex : GoString → Nat) (plan : Plan) (cfg : Config)
    (n x : Node) (m : Manager) {ε : Type} (unpack : List UInt8 → Except ε (List RR))
    (hstart : (newManager o ifindex plan cfg).run n = (.ok m, x)) :
    ∃ ip ob, parseIP4 cfg.proxyIP = some ip ∧ x.objs m.objs = some ob ∧
      ∀ es σ, run (Serve.step o m unpack) (Serve.start x ob.maps) es = some σ →
        ∃ fs τ, fs = trace (Serve.step o m unpack) (effective m) (Serve.start x ob.maps) es ∧
          run (Pipeline.step o m.dnsSvc unpack) (Pipeline.start ob.maps) fs = some τ ∧
          τ.maps = σ.plane.maps ∧ τ.ring = σ.plane.ring ∧ τ.log = σ.plane.log ∧
          (isOpen m σ = true → τ = σ.plane) ∧
          ((∀ d ∈ (fs.flatMap Capture.arrival).flatMap (Pipeline.callsFor m.dnsSvc unpack),
              0 ∉ d.hostname) →
            σ.plane.log ++ σ.plane.ring.filterMap (readRedirectEvent o) =
              ((trace (Pipeline.step o m.dnsSvc unpack) (EndToEnd.pipelineShows o unpack)
                (Pipeline.start ob.maps) fs).foldl (EndToEnd.auditShown o ip cfg.proxyPort)
                  ⟨fun _ => none, []⟩).lines) := by
  obtain ⟨ip, hip, hob⟩ := Interception.serving_objs hstart
  refine ⟨ip, _, hip, hob, ?_⟩
  intro es σ hrun
  obtain ⟨τ, hτ, htracks⟩ := tracks_run hrun
  refine ⟨_, τ, rfl, hτ, htracks.maps, htracks.ring, htracks.log, htracks.whole, ?_⟩
  intro hnul
  rw [← htracks.log, ← htracks.ring]
  exact EndToEnd.audit_run rfl (fun _ => rfl) hτ hnul

section Serving

variable {o : ByteOrder} {m : Manager} {ε : Type} {unpack : List UInt8 → Except ε (List RR)}

/-- A panicked reader stays so. -/
theorem alive_before {τ τ' : Pipeline.State} {fs : List Pipeline.Event}
    (hrun : run (Pipeline.step o m.dnsSvc unpack) τ fs = some τ') (h : τ'.panicked = false) :
    τ.panicked = false := by
  induction fs generalizing τ with
  | nil =>
      obtain rfl := Option.some.inj hrun
      exact h
  | cons e rest ih =>
      obtain ⟨ρ, hstep, hrest⟩ := run_cons.mp hrun
      have hnext := ih hrest
      cases e with
      | frame skb slot => rwa [Pipeline.step_frame hstep] at hnext
      | readDns =>
          obtain ⟨_, _, hcalm, _⟩ := Pipeline.step_readDns hstep
          exact hcalm
      | write now =>
          obtain ⟨_, _, hcalm, _⟩ := Pipeline.step_write hstep
          exact hcalm
      | evict key => rwa [Pipeline.step_evict hstep] at hnext
      | connect call => rwa [Pipeline.step_connect hstep] at hnext
      | readRedirect =>
          obtain ⟨_, _, hcalm, _⟩ := Pipeline.step_readRedirect hstep
          exact hcalm

/-- With open maps, a step of the data plane is one of the pipeline. -/
theorem step_open {σ : Serve.State} {e : Pipeline.Event} {plane : Pipeline.State}
    (hopen : isOpen m σ = true) (hadmits : admits m σ e = true)
    (hstep : Pipeline.step o m.dnsSvc unpack σ.plane e = some plane)
    (halive : plane.panicked = false) :
    Serve.step o m unpack σ (.plane e) = some { σ with plane := plane } := by
  have hboth : planeStep o m unpack σ e = (Pipeline.step o m.dnsSvc unpack σ.plane e).map
      fun plane => if plane.panicked ∧ σ.stage ≠ .gone then die m { σ with plane := plane }
        else { σ with plane := plane } := by
    unfold planeStep
    rw [hopen]
    cases e <;> rfl
  rw [Serve.step, if_pos hadmits, hboth, hstep, Option.map_some, if_neg (by simp [halive])]

/-- Who is admitted does not depend on the maps and rings. -/
theorem admits_plane (σ : Serve.State) (plane : Pipeline.State) (e : Pipeline.Event) :
    admits m { σ with plane := plane } e = admits m σ e := by
  cases e <;> rfl

/-- While the maps are open and the readers read, the agent plays a run of the
pipeline. -/
theorem planes_run {σ : Serve.State} {plane : Pipeline.State} {fs : List Pipeline.Event}
    (hopen : isOpen m σ = true) (hadmits : ∀ e ∈ fs, admits m σ e = true)
    (hrun : run (Pipeline.step o m.dnsSvc unpack) σ.plane fs = some plane)
    (halive : plane.panicked = false) :
    run (Serve.step o m unpack) σ (fs.map .plane) = some { σ with plane := plane } := by
  induction fs generalizing σ with
  | nil =>
      obtain rfl := Option.some.inj hrun
      rfl
  | cons e rest ih =>
      obtain ⟨ρ, hstep, hrest⟩ := run_cons.mp hrun
      have hplane := step_open hopen (hadmits e List.mem_cons_self) hstep
        (alive_before hrest halive)
      have hlater : ∀ e' ∈ rest, admits m { σ with plane := ρ } e' = true := by
        intro e' he'
        rw [admits_plane]
        exact hadmits e' (List.mem_cons_of_mem e he')
      rw [List.map_cons]
      exact run_cons.mpr ⟨_, hplane, ih hopen hlater hrest⟩

end Serving

/-- Both readers open their rings, an answer is read and written, a connect redirected
and logged, and the signal ends the process in order. -/
def servedToTheEnd : List Serve.Event :=
  [.newReader .dns true, .newReader .redirect true] ++ EndToEnd.servedRun.map .plane ++
    [.signal, .watch .dns, .watch .redirect, .readerReturn .dns, .readerReturn .redirect,
      .proceed, .close none, .close none, .close none, .exit]

/-- The three parts of that run: the readers start, the agent serves, the process
ends. -/
theorem servedToTheEnd_ends :
    ∃ σ, run (Serve.step .little (newManagerOf (fun _ => 2) agentConfig Node.boot)
        Capture.openaiUnpack) (Serve.start (afterAttach .little (fun _ => 2) (fun _ => .ok)
          agentConfig ⟨10, 100, 0, 50⟩ Node.boot)
            (servingObjects .little ⟨10, 100, 0, 50⟩ 8443).maps) servedToTheEnd = some σ ∧
      σ.stage = .gone ∧ σ.plane.log.length = 1 := by
  have hserving := @planes_run .little (newManagerOf (fun _ => 2) agentConfig Node.boot) _
    Capture.openaiUnpack
    ⟨afterAttach .little (fun _ => 2) (fun _ => .ok) agentConfig ⟨10, 100, 0, 50⟩ Node.boot,
      .waiting, false, .reading, .reading,
      Pipeline.start (servingObjects .little ⟨10, 100, 0, 50⟩ 8443).maps⟩
    _ EndToEnd.servedRun rfl (by decide +kernel) (EndToEnd.servedRun_ends rfl) rfl
  refine ⟨_, run_append.mpr ⟨_, run_append.mpr ⟨_, ?_, hserving⟩, rfl⟩, rfl, rfl⟩
  rfl

/-- A first start and that run: one line, that of the audit. -/
theorem served_refines_openai :
    ∃ m x ip ob σ fs, (newManager .little (fun _ => 2) (fun _ => .ok) agentConfig).run Node.boot =
        (.ok m, x) ∧ x.objs m.objs = some ob ∧
      run (Serve.step .little m Capture.openaiUnpack) (Serve.start x ob.maps) servedToTheEnd =
        some σ ∧
      σ.stage = .gone ∧ σ.plane.log.length = 1 ∧
      σ.plane.log ++ σ.plane.ring.filterMap (readRedirectEvent .little) =
        ((trace (Pipeline.step .little m.dnsSvc Capture.openaiUnpack)
          (EndToEnd.pipelineShows .little Capture.openaiUnpack) (Pipeline.start ob.maps)
          fs).foldl (EndToEnd.auditShown .little ip agentConfig.proxyPort)
            ⟨fun _ => none, []⟩).lines := by
  obtain ⟨ip, ob, _, hob, h⟩ := served_refines _ _ _ _ _ _ _ Capture.openaiUnpack
    Interception.agent_starts
  obtain rfl := Option.some.inj ((afterAttach_objs _).symm.trans hob)
  obtain ⟨σ, hrun, hgone, hlog⟩ := servedToTheEnd_ends
  obtain ⟨fs, τ, _, _, _, _, _, _, haudit⟩ := h servedToTheEnd σ hrun
  exact ⟨_, _, ip, _, σ, fs, Interception.agent_starts, hob, hrun, hgone, hlog,
    haudit EndToEnd.openaiUnpack_nul_free⟩

end AiInterceptor.Theorems.Shutdown
