import AiInterceptor.Agent.Manager

/-!
# What `NewManager` and `Close` do to a node

`NewManager` is analysed once, for every plan: either the calls up to
`FilterAdd` all succeed (`FilterInstalled`), or it stops with nothing attached
(`newManager_stopped`). From an installed filter on, the rest is one cgroup call
and its cleanup path (`newManager_installed`). Everything about restarts, error
paths and live hooks follows from these two facts.
-/

namespace AiInterceptor.Agent

open Lib Bpf Go

/-! ## Running a call -/

section Syscall

variable {α : Type} {plan : Plan} {c : Call} {act : K α} {onFail : Errno → K α}

theorem syscall_ok (h : plan c = .ok) : syscall plan c act onFail = act := by
  rw [syscall, h]

theorem syscall_fail {e : Errno} (h : plan c = .fail e) :
    syscall plan c act onFail = onFail e := by
  rw [syscall, h]

theorem syscall_kill (h : plan c = .kill) : syscall plan c act onFail = Prog.killed := by
  rw [syscall, h]

theorem wp_syscall {Q : Outcome Error α → Node → Prop} {n : Node}
    (hok : plan c = .ok → act.wp Q n) (hfail : ∀ e, plan c = .fail e → (onFail e).wp Q n)
    (hkill : plan c = .kill → Q .killed n) : (syscall plan c act onFail).wp Q n := by
  cases h : plan c with
  | ok => rw [syscall_ok h]; exact hok h
  | fail e => rw [syscall_fail h]; exact hfail e h
  | kill => rw [syscall_kill h]; exact hkill h

end Syscall

theorem modifyObjs_self (n : Node) (id : Nat) (f : Objects → Objects) :
    (n.modifyObjs id f).objs id = (n.objs id).map f := Function.update_self ..

theorem modifyObjs_of_ne {n : Node} {id j : Nat} (f : Objects → Objects) (h : j ≠ id) :
    (n.modifyObjs id f).objs j = n.objs j := Function.update_of_ne h ..

/-! ## How far `newManager` gets -/

/-- The manager's objects are not held open. -/
def Node.Closed (n : Node) (id : Nat) : Prop := ∀ ob, n.objs id = some ob → ob.isOpen = false

/-- The filter a manager loaded on `n` installs. -/
def ownFilter (ifindex : GoString → Nat) (cfg : Config) (n : Node) : Filter :=
  tcFilter n.loads (ifindex cfg.networkInterface)

@[simp] theorem ownFilter_linkIndex (ifindex : GoString → Nat) (cfg : Config) (n : Node) :
    (ownFilter ifindex cfg n).linkIndex = ifindex cfg.networkInterface := rfl

/-- Everything up to and including `FilterAdd` succeeds. -/
structure FilterInstalled (ifindex : GoString → Nat) (plan : Plan) (cfg : Config) (n : Node) :
    Prop where
  load : plan .load = .ok
  proxyIP : (parseIP4 cfg.proxyIP).isSome
  proxyUpdate : plan .proxyUpdate = .ok
  interfaceByName : plan .interfaceByName = .ok
  qdiscAdd : plan .qdiscAdd = .ok ∨ plan .qdiscAdd = .fail .eexist
  filterAdd : plan .filterAdd = .ok
  free : n.filters.any (ownFilter ifindex cfg n).sameKey = false

/-- Between the load and `FilterAdd`: only the new objects and the qdiscs have
changed. -/
structure Loaded (n x : Node) : Prop where
  loads : x.loads = n.loads + 1
  objs : ∀ id, id ≠ n.loads → x.objs id = n.objs id
  filters : x.filters = n.filters
  cgroupLinks : x.cgroupLinks = n.cgroupLinks

/-- `newManager` ended without a manager and without an attachment. -/
structure Stopped (plan : Plan) (n : Node) (out : Outcome Error Manager) (x : Node) : Prop where
  noManager : ∀ m, out ≠ .ok m
  objs : ∀ id, id ≠ n.loads → x.objs id = n.objs id
  filters : x.filters = n.filters
  cgroupLinks : x.cgroupLinks = n.cgroupLinks
  reported : out ≠ .killed →
    x.loads = n.loads + 1 ∧ (n.objs n.loads = none → plan .objsClose = .ok → x.Closed n.loads)

theorem Loaded.stopped_killed {plan : Plan} {n x : Node} (h : Loaded n x) :
    Stopped plan n .killed x :=
  ⟨(fun _ hm => nomatch hm), h.objs, h.filters, h.cgroupLinks, fun hk => absurd rfl hk⟩

/-- The error paths before `attachCgroup`: close the objects, report the error. -/
theorem Loaded.wp_objsClose {plan : Plan} {n x : Node} (h : Loaded n x) (e : Error) :
    (objsClose plan n.loads).wp (fun out y => match out with
      | .killed => Stopped plan n .killed y
      | _ => Stopped plan n (.err e) y) x := by
  refine wp_syscall ?_ ?_ ?_
  · intro _
    refine ⟨(fun _ hm => nomatch hm), ?_, h.filters, h.cgroupLinks, ?_⟩
    · intro id hid
      exact (modifyObjs_of_ne _ hid).trans (h.objs id hid)
    · intro _
      refine ⟨h.loads, fun _ _ ob hob => ?_⟩
      have hclosed := modifyObjs_self x n.loads fun ob => { ob with isOpen := false }
      obtain ⟨ob', _, rfl⟩ := Option.map_eq_some_iff.mp (hclosed.symm.trans hob)
      rfl
  · intro _ hfail
    refine ⟨(fun _ hm => nomatch hm), h.objs, h.filters, h.cgroupLinks, ?_⟩
    intro _
    exact ⟨h.loads, fun _ hok => absurd (hok.symm.trans hfail) (by simp)⟩
  · intro _
    exact h.stopped_killed

section NewManager

variable {o : ByteOrder} {ifindex : GoString → Nat} {plan : Plan} {cfg : Config} {n : Node}

/-- A step of `newManager` before the cgroup call, with its cleanup: it either
stops the whole, or continues from a loaded node. -/
theorem wp_guarded {α : Type} {x : K α} {f : α → K Manager} {y : Node}
    {P : Outcome Error Manager → Node → Prop}
    (hstop : ∀ out z, Stopped plan n out z → P out z)
    (hx : x.wp (fun out z => match out with
      | .ok a => (f a).wp P z
      | _ => Loaded n z) y) :
    ((x.cleanup (objsClose plan n.loads)) >>= f).wp P y := by
  refine Prog.wp_bind (Prog.wp_cleanup (Prog.wp_mono hx ?_))
  intro out z hz
  cases out with
  | ok a => exact hz
  | killed => exact hstop _ _ (Loaded.stopped_killed hz)
  | err e =>
      refine Prog.wp_mono (Loaded.wp_objsClose hz e) ?_
      intro out' z' hz'
      cases out' with
      | ok u => exact hstop _ _ hz'
      | err e' => exact hstop _ _ hz'
      | killed => exact hstop _ _ hz'

/-- The node after a load. -/
def afterLoad (n : Node) : Node :=
  { n with objs := Function.update n.objs n.loads (some ⟨Maps.empty, true⟩)
           loads := n.loads + 1 }

theorem loaded_afterLoad (n : Node) : Loaded n (afterLoad n) :=
  ⟨rfl, fun _ hid => Function.update_of_ne hid .., rfl, rfl⟩

theorem loadObjects_ok (h : plan .load = .ok) :
    (loadObjects plan).run n = (.ok n.loads, afterLoad n) := by
  rw [loadObjects, syscall_ok h]
  rfl

/-- A qdisc that is there already is as good as a new one. -/
theorem qdiscAdd_ok (h : plan .qdiscAdd = .ok) (linkIndex : Nat) (x : Node) :
    (qdiscAdd plan linkIndex).run x =
      (.ok (), { x with clsact := Function.update x.clsact linkIndex true }) := by
  rw [qdiscAdd, syscall_ok h]
  cases hq : x.clsact linkIndex with
  | true =>
      have hsame : Function.update x.clsact linkIndex true = x.clsact := by
        rw [← hq]
        exact Function.update_eq_self linkIndex x.clsact
      rw [hsame]
      exact if_pos hq
  | false => exact if_neg (by simp [hq])

/-- Both calls of `attachTC` go well. -/
def TcCallsOk (plan : Plan) (n : Node) (linkIndex : Nat) : Prop :=
  (plan .qdiscAdd = .ok ∨ plan .qdiscAdd = .fail .eexist) ∧ plan .filterAdd = .ok ∧
    n.filters.any (tcFilter n.loads linkIndex).sameKey = false

/-- `attachTC` leaves the filters alone unless both its calls go well. -/
theorem wp_attachTC {x : Node} {linkIndex : Nat} (hx : Loaded n x) :
    (attachTC plan n.loads linkIndex).wp (fun out z => match out with
      | .ok _ => TcCallsOk plan n linkIndex
      | _ => Loaded n z) x := by
  -- both ways on: the qdisc was added, or was there
  have hfilter : ∀ z, Loaded n z → (plan .qdiscAdd = .ok ∨ plan .qdiscAdd = .fail .eexist) →
      Prog.wp (filterAdd plan (tcFilter n.loads linkIndex) >>= fun _ =>
        pure (Link.tc (tcFilter n.loads linkIndex))) (fun out z => match out with
        | .ok _ => TcCallsOk plan n linkIndex
        | _ => Loaded n z) z := by
    intro z hz hqdisc
    refine Prog.wp_bind (wp_syscall ?_ (fun _ _ => hz) (fun _ => hz))
    intro hadd
    -- a filter that only differs in its program counts as the same one
    cases hany : z.filters.any (tcFilter n.loads linkIndex).sameKey with
    | true => exact Prog.wp_of_run (if_pos hany) hz
    | false =>
        refine Prog.wp_of_run (if_neg (by simp [hany])) ?_
        exact ⟨hqdisc, hadd, by rw [← hz.filters]; exact hany⟩
  cases hqdisc : plan .qdiscAdd with
  | ok =>
      refine Prog.wp_bind (Prog.wp_of_run (qdiscAdd_ok hqdisc linkIndex x) ?_)
      exact hfilter _ ⟨hx.loads, hx.objs, hx.filters, hx.cgroupLinks⟩ (.inl hqdisc)
  | fail e =>
      refine Prog.wp_bind ?_
      rw [qdiscAdd, syscall_fail hqdisc]
      by_cases he : e = .eexist
      · rw [if_pos he]
        exact hfilter x hx (.inr (he ▸ hqdisc))
      · rw [if_neg he]
        exact hx
  | kill =>
      refine Prog.wp_bind ?_
      rw [qdiscAdd, syscall_kill hqdisc]
      exact hx

/-- Without an installed filter, `newManager` stops with nothing attached. -/
theorem newManager_stopped :
    (newManager o ifindex plan cfg).wp
      (fun out x => FilterInstalled ifindex plan cfg n ∨ Stopped plan n out x) n := by
  have hstop : ∀ out x, Stopped plan n out x →
      FilterInstalled ifindex plan cfg n ∨ Stopped plan n out x := fun _ _ => Or.inr
  refine Prog.wp_bind (wp_syscall ?_ ?_ ?_)
  · intro hload
    -- writeProxyConfig
    refine wp_guarded hstop ?_
    unfold writeProxyConfig
    cases hip : parseIP4 cfg.proxyIP with
    | none => exact loaded_afterLoad n
    | some ip =>
        refine wp_syscall ?_ (fun _ _ => loaded_afterLoad n) (fun _ => loaded_afterLoad n)
        intro hupdate
        have hloaded : Loaded n ((afterLoad n).modifyObjs n.loads
            (·.setProxyConfig (proxyValue o ip cfg.proxyPort))) :=
          ⟨rfl, fun _ hid => (modifyObjs_of_ne _ hid).trans ((loaded_afterLoad n).objs _ hid),
            rfl, rfl⟩
        -- interfaceByName
        refine wp_guarded hstop ?_
        refine wp_syscall ?_ (fun _ _ => hloaded) (fun _ => hloaded)
        intro hiface
        -- attachTC
        refine wp_guarded hstop (Prog.wp_mono (wp_attachTC hloaded) ?_)
        intro out z hz
        cases out with
        | ok l =>
            obtain ⟨hqdisc, hadd, hfree⟩ := hz
            exact Or.inl ⟨hload, by rw [hip]; rfl, hupdate, hiface, hqdisc, hadd, hfree⟩
        | err e => exact hz
        | killed => exact hz
  · intro e hfail
    refine hstop _ _ ⟨(fun _ hm => nomatch hm), fun _ _ => rfl, rfl, rfl, fun _ => ⟨rfl, ?_⟩⟩
    intro hnone _ ob hob
    exact absurd (hnone.symm.trans hob) (by simp)
  · intro hkill
    exact hstop _ _ ⟨(fun _ hm => nomatch hm), fun _ _ => rfl, rfl, rfl, fun h => absurd rfl h⟩

/-! ### From the installed filter on -/

/-- The objects of a manager whose proxy entry is written. -/
def servingObjects (o : ByteOrder) (ip : Ip4) (port : UInt16) : Objects :=
  ⟨{ Maps.empty with proxyConfig := proxyValue o ip port }, true⟩

/-- The node once the filter is installed. -/
def afterFilter (o : ByteOrder) (ifindex : GoString → Nat) (plan : Plan) (cfg : Config) (ip : Ip4)
    (n : Node) : Node :=
  { objs := Function.update n.objs n.loads (some (servingObjects o ip cfg.proxyPort))
    loads := n.loads + 1
    clsact := if plan .qdiscAdd = .ok then
        Function.update n.clsact (ifindex cfg.networkInterface) true
      else n.clsact
    filters := n.filters ++ [ownFilter ifindex cfg n]
    cgroupLinks := n.cgroupLinks }

/-- The cleanup of the last error path. -/
def undoFilter (ifindex : GoString → Nat) (plan : Plan) (cfg : Config) (n : Node) : K Unit := do
  closeLinks plan [.tc (ownFilter ifindex cfg n)]
  objsClose plan n.loads

/-- The manager `newManager` returns. -/
def newManagerOf (ifindex : GoString → Nat) (cfg : Config) (n : Node) : Manager :=
  { objs := n.loads
    dnsSvc := ⟨cfg.aiDomains⟩
    links := [.tc (ownFilter ifindex cfg n), .cgroup ⟨cfg.cgroupPath, n.loads⟩] }

theorem attachTC_ok {x : Node} {linkIndex : Nat} (h : TcCallsOk plan n linkIndex)
    (hx : Loaded n x) :
    (attachTC plan n.loads linkIndex).run x =
      (.ok (.tc (tcFilter n.loads linkIndex)),
        { x with
          clsact := if plan .qdiscAdd = .ok then Function.update x.clsact linkIndex true
            else x.clsact
          filters := x.filters ++ [tcFilter n.loads linkIndex] }) := by
  obtain ⟨hqdisc, hadd, hfree⟩ := h
  rw [← hx.filters] at hfree
  have hfilter : ∀ z : Node, z.filters = x.filters →
      (filterAdd plan (tcFilter n.loads linkIndex)).run z =
        (.ok (), { z with filters := z.filters ++ [tcFilter n.loads linkIndex] }) := by
    intro z hz
    rw [filterAdd, syscall_ok hadd]
    exact if_neg (by rw [hz, hfree]; simp)
  rcases hqdisc with hq | hq
  · have hadded := hfilter { x with clsact := Function.update x.clsact linkIndex true } rfl
    rw [attachTC, Prog.run_bind_of_ok (qdiscAdd_ok hq linkIndex x), Prog.run_bind_of_ok hadded,
      if_pos hq]
    rfl
  · have hqd : (qdiscAdd plan linkIndex).run x = (.ok (), x) := by
      rw [qdiscAdd, syscall_fail hq, if_pos rfl]
      rfl
    rw [attachTC, Prog.run_bind_of_ok hqd, Prog.run_bind_of_ok (hfilter x rfl),
      if_neg (by rw [hq]; simp)]
    rfl

theorem writeProxyConfig_ok {ip : Ip4} {proxyIP : GoString} (port : UInt16)
    (hplan : plan .proxyUpdate = .ok) (hip : parseIP4 proxyIP = some ip) (id : Nat) (x : Node) :
    (writeProxyConfig o plan id proxyIP port).run x =
      (.ok (), x.modifyObjs id (·.setProxyConfig (proxyValue o ip port))) := by
  rw [writeProxyConfig, hip]
  simp only [syscall_ok hplan]
  rfl

/-- With the filter installed, all that is left is the cgroup call. -/
theorem newManager_installed {ip : Ip4} (h : FilterInstalled ifindex plan cfg n)
    (hip : parseIP4 cfg.proxyIP = some ip) :
    (newManager o ifindex plan cfg).run n =
      (((attachCgroup plan n.loads cfg.cgroupPath).cleanup (undoFilter ifindex plan cfg n)) >>=
        fun cg => pure { newManagerOf ifindex cfg n with
          links := [.tc (ownFilter ifindex cfg n), cg] }).run
        (afterFilter o ifindex plan cfg ip n) := by
  have hload := loadObjects_ok (n := n) h.load
  have hproxy := @writeProxyConfig_ok o plan ip cfg.proxyIP cfg.proxyPort h.proxyUpdate hip
    n.loads (afterLoad n)
  have hloaded : Loaded n ((afterLoad n).modifyObjs n.loads
      (·.setProxyConfig (proxyValue o ip cfg.proxyPort))) :=
    ⟨rfl, fun _ hid => (modifyObjs_of_ne _ hid).trans ((loaded_afterLoad n).objs _ hid), rfl, rfl⟩
  have hiface : (interfaceByName ifindex plan cfg.networkInterface).run
      ((afterLoad n).modifyObjs n.loads (·.setProxyConfig (proxyValue o ip cfg.proxyPort))) =
      (.ok (ifindex cfg.networkInterface), (afterLoad n).modifyObjs n.loads
        (·.setProxyConfig (proxyValue o ip cfg.proxyPort))) := by
    rw [interfaceByName, syscall_ok h.interfaceByName]
    rfl
  have htc := attachTC_ok ⟨h.qdiscAdd, h.filterAdd, h.free⟩ hloaded
  rw [newManager, Prog.run_bind_of_ok hload, Prog.run_bind_of_ok (Prog.run_cleanup_of_ok hproxy),
    Prog.run_bind_of_ok (Prog.run_cleanup_of_ok hiface),
    Prog.run_bind_of_ok (Prog.run_cleanup_of_ok htc)]
  have hnode : afterFilter o ifindex plan cfg ip n =
      { (afterLoad n).modifyObjs n.loads (·.setProxyConfig (proxyValue o ip cfg.proxyPort)) with
        clsact := if plan .qdiscAdd = .ok then
            Function.update n.clsact (ifindex cfg.networkInterface) true
          else n.clsact
        filters := n.filters ++ [ownFilter ifindex cfg n] } := by
    have hobjs : Function.update n.objs n.loads (some (servingObjects o ip cfg.proxyPort)) =
        ((afterLoad n).modifyObjs n.loads
          (·.setProxyConfig (proxyValue o ip cfg.proxyPort))).objs := by
      funext id
      by_cases hid : id = n.loads
      · subst hid
        rw [Function.update_self, modifyObjs_self]
        show _ = (Function.update n.objs n.loads (some ⟨Maps.empty, true⟩) n.loads).map _
        rw [Function.update_self]
        rfl
      · rw [Function.update_of_ne hid, hloaded.objs id hid]
    rw [afterFilter, hobjs]
    rfl
  rw [hnode]
  rfl

/-- The node with both hooks attached. -/
def afterAttach (o : ByteOrder) (ifindex : GoString → Nat) (plan : Plan) (cfg : Config) (ip : Ip4)
    (n : Node) : Node :=
  { afterFilter o ifindex plan cfg ip n with
    cgroupLinks := n.cgroupLinks ++ [⟨cfg.cgroupPath, n.loads⟩] }

theorem newManager_ok {ip : Ip4} (h : FilterInstalled ifindex plan cfg n)
    (hip : parseIP4 cfg.proxyIP = some ip) (hcg : plan .attachCgroup = .ok) :
    (newManager o ifindex plan cfg).run n =
      (.ok (newManagerOf ifindex cfg n), afterAttach o ifindex plan cfg ip n) := by
  have hattach : (attachCgroup plan n.loads cfg.cgroupPath).run
      (afterFilter o ifindex plan cfg ip n) =
      (.ok (.cgroup ⟨cfg.cgroupPath, n.loads⟩), afterAttach o ifindex plan cfg ip n) := by
    rw [attachCgroup, syscall_ok hcg]
    rfl
  rw [newManager_installed h hip, Prog.run_bind_of_ok (Prog.run_cleanup_of_ok hattach)]
  rfl

theorem newManager_killed {ip : Ip4} (h : FilterInstalled ifindex plan cfg n)
    (hip : parseIP4 cfg.proxyIP = some ip) (hcg : plan .attachCgroup = .kill) :
    (newManager o ifindex plan cfg).run n = (.killed, afterFilter o ifindex plan cfg ip n) := by
  rw [newManager_installed h hip, attachCgroup, syscall_kill hcg]
  rfl

theorem newManager_undone {ip : Ip4} {e : Errno} (h : FilterInstalled ifindex plan cfg n)
    (hip : parseIP4 cfg.proxyIP = some ip) (hcg : plan .attachCgroup = .fail e) :
    (newManager o ifindex plan cfg).run n =
      match (undoFilter ifindex plan cfg n).run (afterFilter o ifindex plan cfg ip n) with
      | (.killed, x) => (.killed, x)
      | (_, x) => (.err (.attachCgroup e), x) := by
  rw [newManager_installed h hip, attachCgroup, syscall_fail hcg, Prog.run_bind, Prog.run_cleanup,
    Prog.run_throw]
  dsimp only
  cases hundo : (undoFilter ifindex plan cfg n).run (afterFilter o ifindex plan cfg ip n) with
  | mk out x =>
      cases out with
      | ok u => rfl
      | err e => rfl
      | killed => rfl

/-- A manager is returned only with everything written and attached. -/
theorem newManager_succeeded {m : Manager} {x : Node}
    (h : (newManager o ifindex plan cfg).run n = (.ok m, x)) :
    ∃ ip, parseIP4 cfg.proxyIP = some ip ∧ m = newManagerOf ifindex cfg n ∧
      x = afterAttach o ifindex plan cfg ip n := by
  have hstop := @newManager_stopped o ifindex plan cfg n
  unfold Prog.wp at hstop
  rw [h] at hstop
  rcases hstop with hinst | hstop
  · obtain ⟨ip, hip⟩ := Option.isSome_iff_exists.mp hinst.proxyIP
    cases hcg : plan .attachCgroup with
    | ok =>
        have hpair := h.symm.trans (newManager_ok hinst hip hcg)
        rw [Prod.mk.injEq, Outcome.ok.injEq] at hpair
        exact ⟨ip, hip, hpair⟩
    | fail e =>
        have hpair := h.symm.trans (newManager_undone hinst hip hcg)
        split at hpair <;> simp at hpair
    | kill =>
        have hpair := h.symm.trans (newManager_killed hinst hip hcg)
        simp at hpair
  · exact absurd rfl (hstop.noManager m)

theorem afterAttach_objs (ip : Ip4) :
    (afterAttach o ifindex plan cfg ip n).objs n.loads =
      some (servingObjects o ip cfg.proxyPort) := Function.update_self ..

end NewManager

/-! ## Closing -/

section Close

variable {plan : Plan}

/-- The node without the filters at the key of `f`. -/
def Node.dropFilter (n : Node) (f : Filter) : Node :=
  { n with filters := n.filters.filter fun g => !f.sameKey g }

def Node.dropLink (n : Node) (id : Nat) : Node :=
  { n with cgroupLinks := n.cgroupLinks.filter (·.prog ≠ id) }

def Node.closeObjs (n : Node) (id : Nat) : Node :=
  n.modifyObjs id fun ob => { ob with isOpen := false }

theorem closed_closeObjs (n : Node) (id : Nat) : (n.closeObjs id).Closed id := by
  intro ob hob
  have hself := modifyObjs_self n id fun ob => { ob with isOpen := false }
  obtain ⟨ob', _, rfl⟩ := Option.map_eq_some_iff.mp (hself.symm.trans hob)
  rfl

theorem closeLink_tc (h : plan .filterDel = .ok) (f : Filter) (x : Node) :
    (closeLink plan (.tc f)).run x = (.ok (), x.dropFilter f) := by
  rw [closeLink, syscall_ok h]
  rfl

theorem closeLink_cgroup (h : plan .linkClose = .ok) (l : CgroupLink) (x : Node) :
    (closeLink plan (.cgroup l)).run x = (.ok (), x.dropLink l.prog) := by
  rw [closeLink, syscall_ok h]
  rfl

theorem objsClose_ok (h : plan .objsClose = .ok) (id : Nat) (x : Node) :
    (objsClose plan id).run x = (.ok (), x.closeObjs id) := by
  rw [objsClose, syscall_ok h]
  rfl

/-- Deleting the filter that was just added gives back the filters before. -/
theorem dropFilter_added {n : Node} {f : Filter} (hfree : n.filters.any f.sameKey = false) :
    (n.filters ++ [f]).filter (fun g => !f.sameKey g) = n.filters := by
  have hself : f.sameKey f = true := by simp [Filter.sameKey]
  rw [List.filter_append, List.filter_eq_self.mpr]
  · simp [hself]
  · intro g hg
    rw [List.any_eq_false] at hfree
    simpa using hfree g hg

/-- What a `FilterDel` that may go wrong leaves of the filters. -/
def filtersAfterDel (plan : Plan) (f : Filter) (x : Node) : List Filter :=
  if plan .filterDel = .ok then (x.dropFilter f).filters else x.filters

/-- Whatever happens after the filter's `Close`, the filters stay as it left
them. -/
theorem wp_closeTc {α : Type} {f : Filter} {rest : Unit → K α} {x : Node}
    (hrest : ∀ y, (rest ()).wp (fun _ z => z.filters = y.filters) y) :
    (closeLink plan (.tc f) >>= rest).wp (fun _ z => z.filters = filtersAfterDel plan f x) x := by
  refine Prog.wp_bind (wp_syscall ?_ ?_ ?_)
  · intro hok
    show (rest ()).wp (fun _ z => z.filters = filtersAfterDel plan f x) (x.dropFilter f)
    refine Prog.wp_mono (hrest (x.dropFilter f)) ?_
    intro out z hz
    rw [hz, filtersAfterDel, if_pos hok]
  · intro e hfail
    show (rest ()).wp (fun _ z => z.filters = filtersAfterDel plan f x) x
    refine Prog.wp_mono (hrest x) ?_
    intro out z hz
    rw [hz, filtersAfterDel, if_neg (by rw [hfail]; simp)]
  · intro hkill
    show x.filters = _
    rw [filtersAfterDel, if_neg (by rw [hkill]; simp)]

theorem wp_objsClose_filters (id : Nat) (y : Node) :
    (objsClose plan id).wp (fun _ z => z.filters = y.filters) y :=
  wp_syscall (fun _ => rfl) (fun _ _ => rfl) (fun _ => rfl)

theorem wp_undoFilter_filters (ifindex : GoString → Nat) (cfg : Config) (n x : Node) :
    (undoFilter ifindex plan cfg n).wp
      (fun _ z => z.filters = filtersAfterDel plan (ownFilter ifindex cfg n) x) x := by
  have hbody : undoFilter ifindex plan cfg n =
      (closeLink plan (.tc (ownFilter ifindex cfg n)) >>= fun _ => objsClose plan n.loads) := by
    simp only [undoFilter, closeLinks, bind_assoc, pure_bind]
  rw [hbody]
  exact wp_closeTc fun y => wp_objsClose_filters n.loads y

theorem wp_close_filters (m : Manager) (f : Filter) (l : CgroupLink)
    (hlinks : m.links = [.tc f, .cgroup l]) (x : Node) :
    (m.close plan).wp (fun _ z => z.filters = filtersAfterDel plan f x) x := by
  have hbody : m.close plan =
      (closeLink plan (.tc f) >>= fun _ => (closeLink plan (.cgroup l) >>= fun _ =>
        (objsClose plan m.objs >>= fun _ => pure { m with links := [] }))) := by
    simp only [Manager.close, hlinks, closeLinks, bind_assoc, pure_bind]
  rw [hbody]
  refine wp_closeTc fun y => ?_
  -- neither the link's `Close` nor that of the objects touches a filter
  have hobjs : ∀ z : Node, z.filters = y.filters → Prog.wp
      (objsClose plan m.objs >>= fun _ => (pure { m with links := [] } : K Manager))
      (fun _ w => w.filters = y.filters) z := by
    intro z hz
    exact Prog.wp_bind (wp_syscall (fun _ => hz) (fun _ _ => hz) (fun _ => hz))
  exact Prog.wp_bind (wp_syscall (fun _ => hobjs _ rfl) (fun _ _ => hobjs _ rfl) (fun _ => rfl))

/-- A manager returned by `newManager` closes down completely when its deletes
succeed. -/
theorem close_ok (hdel : plan .filterDel = .ok) (hlink : plan .linkClose = .ok)
    (hobjs : plan .objsClose = .ok) (m : Manager) (f : Filter) (l : CgroupLink)
    (hlinks : m.links = [.tc f, .cgroup l]) (x : Node) :
    (m.close plan).run x = (.ok { m with links := [] },
      ((x.dropFilter f).dropLink l.prog).closeObjs m.objs) := by
  have hbody : m.close plan =
      (closeLink plan (.tc f) >>= fun _ => (closeLink plan (.cgroup l) >>= fun _ =>
        (objsClose plan m.objs >>= fun _ => pure { m with links := [] }))) := by
    simp only [Manager.close, hlinks, closeLinks, bind_assoc, pure_bind]
  rw [hbody, Prog.run_bind_of_ok (closeLink_tc hdel f x),
    Prog.run_bind_of_ok (closeLink_cgroup hlink l _),
    Prog.run_bind_of_ok (objsClose_ok hobjs m.objs _)]
  rfl

end Close

/-! ## When deletes succeed and nobody is killed -/

section Orderly

variable {plan : Plan}

/-- Any of the six calls of `NewManager` may fail; nothing else goes wrong. -/
structure Orderly (plan : Plan) : Prop where
  alive : ∀ c, plan c ≠ .kill
  filterDel : plan .filterDel = .ok
  linkClose : plan .linkClose = .ok
  objsClose : plan .objsClose = .ok

theorem alive_syscall {α : Type} (h : Orderly plan) {c : Call} {act : K α}
    {onFail : Errno → K α} (hact : act.Alive) (hfail : ∀ e, (onFail e).Alive) :
    (syscall plan c act onFail).Alive := by
  cases hc : plan c with
  | ok => rw [syscall_ok hc]; exact hact
  | fail e => rw [syscall_fail hc]; exact hfail e
  | kill => exact absurd hc (h.alive c)

theorem alive_objsClose (h : Orderly plan) (id : Nat) : (objsClose plan id).Alive :=
  alive_syscall h (fun _ hk => nomatch hk) (fun _ => Prog.alive_pure ())

theorem alive_closeLinks (h : Orderly plan) (links : List Link) :
    (closeLinks plan links).Alive := by
  induction links with
  | nil => exact Prog.alive_pure ()
  | cons l rest ih =>
      refine Prog.Alive.bind ?_ fun _ => ih
      cases l with
      | tc f => exact alive_syscall h (fun _ hk => nomatch hk) (fun _ => Prog.alive_pure ())
      | cgroup l => exact alive_syscall h (fun _ hk => nomatch hk) (fun _ => Prog.alive_pure ())

theorem newManager_alive (h : Orderly plan) (o : ByteOrder) (ifindex : GoString → Nat)
    (cfg : Config) : (newManager o ifindex plan cfg).Alive := by
  refine Prog.Alive.bind
    (alive_syscall h (fun _ hk => nomatch hk) fun _ _ hk => nomatch hk) fun id => ?_
  refine Prog.Alive.bind (Prog.Alive.cleanup ?_ (alive_objsClose h id)) fun _ => ?_
  · unfold writeProxyConfig
    cases parseIP4 cfg.proxyIP with
    | none => exact Prog.alive_throw _
    | some ip => exact alive_syscall h (fun _ hk => nomatch hk) fun _ => Prog.alive_throw _
  refine Prog.Alive.bind (Prog.Alive.cleanup ?_ (alive_objsClose h id)) fun linkIndex => ?_
  · exact alive_syscall h (Prog.alive_pure _) fun _ => Prog.alive_throw _
  refine Prog.Alive.bind (Prog.Alive.cleanup ?_ (alive_objsClose h id)) fun tc => ?_
  · refine Prog.Alive.bind ?_ fun _ => Prog.Alive.bind ?_ fun _ => Prog.alive_pure _
    · refine alive_syscall h ?_ ?_
      · intro n
        show (if n.clsact linkIndex then _ else _ : Outcome Error Unit × Node).1 ≠ .killed
        split <;> exact fun hk => nomatch hk
      · intro e
        split
        · exact Prog.alive_pure ()
        · exact Prog.alive_throw _
    · refine alive_syscall h ?_ fun _ => Prog.alive_throw _
      intro n
      show (if n.filters.any (tcFilter id linkIndex).sameKey then _ else _ :
        Outcome Error Unit × Node).1 ≠ .killed
      split <;> exact fun hk => nomatch hk
  refine Prog.Alive.bind (Prog.Alive.cleanup ?_ ?_) fun cg => Prog.alive_pure _
  · exact alive_syscall h (fun _ hk => nomatch hk) fun _ => Prog.alive_throw _
  · exact Prog.Alive.bind (alive_closeLinks h [tc]) fun _ => alive_objsClose h id

/-- The last error path takes the filter away again. -/
theorem newManager_undone_stopped (h : Orderly plan) {o : ByteOrder} {ifindex : GoString → Nat}
    {cfg : Config} {n : Node} {e : Errno} (hinst : FilterInstalled ifindex plan cfg n)
    (hcg : plan .attachCgroup = .fail e) :
    (newManager o ifindex plan cfg).wp (Stopped plan n) n := by
  obtain ⟨ip, hip⟩ := Option.isSome_iff_exists.mp hinst.proxyIP
  have hundo : (undoFilter ifindex plan cfg n).run (afterFilter o ifindex plan cfg ip n) =
      (.ok (), ((afterFilter o ifindex plan cfg ip n).dropFilter
        (ownFilter ifindex cfg n)).closeObjs n.loads) := by
    simp only [undoFilter, closeLinks, bind_assoc, pure_bind]
    rw [Prog.run_bind_of_ok (closeLink_tc h.filterDel _ _), objsClose_ok h.objsClose]
  have hrun := @newManager_undone o ifindex plan cfg n ip e hinst hip hcg
  rw [hundo] at hrun
  refine Prog.wp_of_run hrun ⟨(fun _ hm => nomatch hm), ?_, ?_, rfl, fun _ => ⟨rfl, ?_⟩⟩
  · intro id hid
    exact (modifyObjs_of_ne _ hid).trans (Function.update_of_ne hid ..)
  · exact dropFilter_added hinst.free
  · intro _ _
    exact closed_closeObjs _ n.loads

/-- The two ends of `NewManager`. -/
theorem newManager_orderly (h : Orderly plan) (o : ByteOrder) (ifindex : GoString → Nat)
    (cfg : Config) (n : Node) :
    (∃ ip, parseIP4 cfg.proxyIP = some ip ∧ (newManager o ifindex plan cfg).run n =
      (.ok (newManagerOf ifindex cfg n), afterAttach o ifindex plan cfg ip n)) ∨
    ∃ e x, (newManager o ifindex plan cfg).run n = (.err e, x) ∧ Stopped plan n (.err e) x := by
  have hstopped : (newManager o ifindex plan cfg).wp (Stopped plan n) n →
      ∃ e x, (newManager o ifindex plan cfg).run n = (.err e, x) ∧ Stopped plan n (.err e) x := by
    intro hstop
    unfold Prog.wp at hstop
    have halive := newManager_alive h o ifindex cfg n
    cases hr : (newManager o ifindex plan cfg).run n with
    | mk out x =>
        rw [hr] at hstop halive
        cases out with
        | ok m => exact absurd rfl (hstop.noManager m)
        | err e => exact ⟨e, x, rfl, hstop⟩
        | killed => exact absurd rfl halive
  by_cases hinst : FilterInstalled ifindex plan cfg n
  · obtain ⟨ip, hip⟩ := Option.isSome_iff_exists.mp hinst.proxyIP
    cases hcg : plan .attachCgroup with
    | ok => exact Or.inl ⟨ip, hip, newManager_ok hinst hip hcg⟩
    | fail e => exact Or.inr (hstopped (newManager_undone_stopped h hinst hcg))
    | kill => exact absurd hcg (h.alive _)
  · refine Or.inr (hstopped (Prog.wp_mono newManager_stopped ?_))
    intro out x hout
    exact hout.resolve_left hinst

end Orderly

end AiInterceptor.Agent
