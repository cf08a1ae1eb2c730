import AiInterceptor.Agent.Process
import AiInterceptor.Logic.Manager
import AiInterceptor.Logic.Redirect

/-!
# Restarting the agent

`attachTC` accepts a clsact qdisc that is there already and rejects a filter
that is. So a lifetime that ends between its `FilterAdd` and a successful
`FilterDel` bars every later one from its interface. The filters of a node after
any history are exactly those such lifetimes left (`replay_inventory`), and a
restart recovers exactly on an interface without one (`restart_recovers_iff`).
-/

namespace AiInterceptor.Theorems.Restart

open Lib Bpf Go Agent

variable {o : ByteOrder} {ifindex : GoString → Nat}

/-- No kernel call fails for an external reason. -/
def noFault : Plan := fun _ => .ok

def filtersOn (n : Node) (linkIndex : Nat) : List Filter :=
  n.filters.filter fun f => f.linkIndex == linkIndex

/-- The next `NewManager` succeeds and leaves exactly one filter on its
interface. -/
def Recovers (o : ByteOrder) (ifindex : GoString → Nat) (cfg : Config) (n : Node) : Prop :=
  (∃ m, ((newManager o ifindex noFault cfg).run n).1 = .ok m) ∧
    (filtersOn ((newManager o ifindex noFault cfg).run n).2
      (ifindex cfg.networkInterface)).length = 1

/-- A lifetime that gets through `FilterAdd` on an interface without a filter and
ends without a successful `FilterDel`. -/
structure LeavesFilter (ifindex : GoString → Nat) (l : Lifetime) (linkIndex : Nat) : Prop where
  interface : ifindex l.cfg.networkInterface = linkIndex
  proxyIP : (parseIP4 l.cfg.proxyIP).isSome
  load : l.plan .load = .ok
  proxyUpdate : l.plan .proxyUpdate = .ok
  interfaceByName : l.plan .interfaceByName = .ok
  qdiscAdd : l.plan .qdiscAdd = .ok ∨ l.plan .qdiscAdd = .fail .eexist
  filterAdd : l.plan .filterAdd = .ok
  notDeleted : l.plan .attachCgroup = .kill ∨
    (l.plan .attachCgroup = .ok ∧ l.plan .serve ≠ .ok) ∨ l.plan .filterDel ≠ .ok

/-! ## One lifetime -/

theorem installed_of_leaves {l : Lifetime} {n : Node} {linkIndex : Nat}
    (h : LeavesFilter ifindex l linkIndex)
    (hfree : n.filters.any (ownFilter ifindex l.cfg n).sameKey = false) :
    FilterInstalled ifindex l.plan l.cfg n :=
  ⟨h.load, h.proxyIP, h.proxyUpdate, h.interfaceByName, h.qdiscAdd, h.filterAdd, hfree⟩

theorem leaves_of_installed {l : Lifetime} {n : Node}
    (h : FilterInstalled ifindex l.plan l.cfg n)
    (hdel : l.plan .attachCgroup = .kill ∨
      (l.plan .attachCgroup = .ok ∧ l.plan .serve ≠ .ok) ∨ l.plan .filterDel ≠ .ok) :
    LeavesFilter ifindex l (ifindex l.cfg.networkInterface) :=
  ⟨rfl, h.proxyIP, h.load, h.proxyUpdate, h.interfaceByName, h.qdiscAdd, h.filterAdd, hdel⟩

/-- What one lifetime adds to the filters of a node. -/
def Leftover (ifindex : GoString → Nat) (l : Lifetime) (n x : Node) : Prop :=
  (n.filters.any (ownFilter ifindex l.cfg n).sameKey = false ∧
    LeavesFilter ifindex l (ifindex l.cfg.networkInterface) ∧
    x.filters = n.filters ++ [ownFilter ifindex l.cfg n]) ∨
  (¬ (n.filters.any (ownFilter ifindex l.cfg n).sameKey = false ∧
    LeavesFilter ifindex l (ifindex l.cfg.networkInterface)) ∧ x.filters = n.filters)

/-- A lifetime whose filter was installed and whose `Close` ran as far as its
plan let it. -/
theorem leftover_of_del {l : Lifetime} {n x y : Node}
    (h : FilterInstalled ifindex l.plan l.cfg n)
    (hy : y.filters = n.filters ++ [ownFilter ifindex l.cfg n])
    (hcg : l.plan .attachCgroup ≠ .kill)
    (hserve : l.plan .attachCgroup = .ok → l.plan .serve = .ok)
    (hx : x.filters = filtersAfterDel l.plan (ownFilter ifindex l.cfg n) y) :
    Leftover ifindex l n x := by
  rw [filtersAfterDel] at hx
  by_cases hdel : l.plan .filterDel = .ok
  · refine Or.inr ⟨?_, ?_⟩
    · rintro ⟨_, hleaves⟩
      rcases hleaves.notDeleted with hkill | ⟨hok, hns⟩ | hnd
      · exact hcg hkill
      · exact hns (hserve hok)
      · exact hnd hdel
    · rw [hx, if_pos hdel, Node.dropFilter, hy, dropFilter_added h.free]
  · refine Or.inl ⟨h.free, leaves_of_installed h (.inr (.inr hdel)), ?_⟩
    rw [hx, if_neg hdel, hy]

/-- A lifetime that gets as far as its filter. -/
theorem leftover_installed (l : Lifetime) {n : Node}
    (hinst : FilterInstalled ifindex l.plan l.cfg n) :
    Leftover ifindex l n (main o ifindex l n) := by
  obtain ⟨ip, hip⟩ := Option.isSome_iff_exists.mp hinst.proxyIP
  cases hcg : l.plan .attachCgroup with
  | ok =>
      have hrun := @newManager_ok o ifindex l.plan l.cfg n ip hinst hip hcg
      unfold main
      rw [hrun]
      cases hserve : l.plan .serve with
      | ok =>
          -- a clean end: `Close` runs, and may fail to remove the filter
          have hclose := @wp_close_filters l.plan (newManagerOf ifindex l.cfg n) _ _ rfl
            (afterAttach o ifindex l.plan l.cfg ip n)
          exact leftover_of_del hinst rfl (by rw [hcg]; simp) (fun _ => hserve) hclose
      | fail e =>
          refine Or.inl ⟨hinst.free, leaves_of_installed hinst (.inr (.inl ⟨hcg, ?_⟩)), rfl⟩
          rw [hserve]
          simp
      | kill =>
          refine Or.inl ⟨hinst.free, leaves_of_installed hinst (.inr (.inl ⟨hcg, ?_⟩)), rfl⟩
          rw [hserve]
          simp
  | fail e =>
      have hrun := @newManager_undone o ifindex l.plan l.cfg n ip e hinst hip hcg
      -- `NewManager` takes the filter back itself when the last call fails
      have hundo := @wp_undoFilter_filters l.plan ifindex l.cfg n
        (afterFilter o ifindex l.plan l.cfg ip n)
      unfold Prog.wp at hundo
      unfold main
      rw [hrun]
      cases hu : (undoFilter ifindex l.plan l.cfg n).run
          (afterFilter o ifindex l.plan l.cfg ip n) with
      | mk out x =>
          rw [hu] at hundo
          have hleft : Leftover ifindex l n (exit n.loads x) :=
            leftover_of_del hinst rfl (by rw [hcg]; simp) (by rw [hcg]; simp) hundo
          cases out with
          | ok u => exact hleft
          | err e' => exact hleft
          | killed => exact hleft
  | kill =>
      have hrun := @newManager_killed o ifindex l.plan l.cfg n ip hinst hip hcg
      unfold main
      rw [hrun]
      exact Or.inl ⟨hinst.free, leaves_of_installed hinst (.inl hcg), rfl⟩

/-- A lifetime that attaches nothing. -/
theorem leftover_stopped (l : Lifetime) {n : Node}
    (hinst : ¬ FilterInstalled ifindex l.plan l.cfg n) :
    Leftover ifindex l n (main o ifindex l n) := by
  have hstop := @newManager_stopped o ifindex l.plan l.cfg n
  unfold Prog.wp at hstop
  rcases hstop with hinst' | hstop
  · exact absurd hinst' hinst
  refine Or.inr ⟨fun ⟨hfree, hleaves⟩ => hinst (installed_of_leaves hleaves hfree), ?_⟩
  unfold main
  cases hr : (newManager o ifindex l.plan l.cfg).run n with
  | mk out x =>
      rw [hr] at hstop
      cases out with
      | ok m => exact absurd rfl (hstop.noManager m)
      | err e => exact hstop.filters
      | killed => exact hstop.filters

/-- The step lemma: a lifetime leaves one filter or none, and which of the two
its inputs and the filters before it decide. -/
theorem main_leftover (l : Lifetime) (n : Node) :
    Leftover ifindex l n (main o ifindex l n) := by
  by_cases hinst : FilterInstalled ifindex l.plan l.cfg n
  · exact leftover_installed l hinst
  · exact leftover_stopped l hinst

/-! ## Histories -/

/-- What a history left behind, interface by interface. -/
structure Inventory (ifindex : GoString → Nat) (hist : List Lifetime) (n : Node) : Prop where
  own : ∀ f ∈ n.filters, ∃ id linkIndex, f = tcFilter id linkIndex
  left : ∀ linkIndex, (∃ l ∈ hist, LeavesFilter ifindex l linkIndex) →
    (filtersOn n linkIndex).length = 1
  clean : ∀ linkIndex, (¬ ∃ l ∈ hist, LeavesFilter ifindex l linkIndex) →
    filtersOn n linkIndex = []

/-- The agent's filters differ only in their interface, so `FilterAdd` finds its
key taken exactly when the interface has a filter. -/
theorem free_iff {n : Node} {cfg : Config}
    (hown : ∀ f ∈ n.filters, ∃ id linkIndex, f = tcFilter id linkIndex) :
    n.filters.any (ownFilter ifindex cfg n).sameKey = false ↔
      filtersOn n (ifindex cfg.networkInterface) = [] := by
  rw [List.any_eq_false, filtersOn, List.filter_eq_nil_iff]
  have hkey : ∀ f ∈ n.filters, (ownFilter ifindex cfg n).sameKey f =
      (f.linkIndex == ifindex cfg.networkInterface) := by
    intro f hf
    obtain ⟨id, linkIndex, rfl⟩ := hown f hf
    simp [ownFilter, tcFilter, Filter.sameKey, eq_comm, Bool.beq_eq_decide_eq]
  constructor
  · intro h f hf
    rw [← hkey f hf]
    exact h f hf
  · intro h f hf
    rw [hkey f hf]
    exact h f hf

theorem filtersOn_append {n x : Node} {f : Filter} (h : x.filters = n.filters ++ [f])
    (linkIndex : Nat) :
    filtersOn x linkIndex =
      filtersOn n linkIndex ++ if f.linkIndex = linkIndex then [f] else [] := by
  rw [filtersOn, h, List.filter_append]
  by_cases hf : f.linkIndex = linkIndex
  · simp [filtersOn, hf]
  · simp [filtersOn, hf]

theorem exists_leaves_snoc {hist : List Lifetime} {l : Lifetime} {linkIndex : Nat} :
    (∃ l' ∈ hist ++ [l], LeavesFilter ifindex l' linkIndex) ↔
      (∃ l' ∈ hist, LeavesFilter ifindex l' linkIndex) ∨ LeavesFilter ifindex l linkIndex := by
  simp [or_and_right, exists_or]

section Step

variable {hist : List Lifetime} {n x : Node} {l : Lifetime}

/-- A lifetime that leaves its filter on a free interface. -/
theorem Inventory.grow (h : Inventory ifindex hist n)
    (hfree : n.filters.any (ownFilter ifindex l.cfg n).sameKey = false)
    (hleaves : LeavesFilter ifindex l (ifindex l.cfg.networkInterface))
    (hx : x.filters = n.filters ++ [ownFilter ifindex l.cfg n]) :
    Inventory ifindex (hist ++ [l]) x := by
  have hempty := (free_iff h.own).mp hfree
  -- the interface had no filter before and has this one now; the others keep theirs
  refine ⟨?_, ?_, ?_⟩
  · intro f hf
    rw [hx, List.mem_append, List.mem_singleton] at hf
    rcases hf with hf | rfl
    · exact h.own f hf
    · exact ⟨n.loads, _, rfl⟩
  · intro linkIndex hl
    rw [filtersOn_append hx, ownFilter_linkIndex]
    by_cases hidx : ifindex l.cfg.networkInterface = linkIndex
    · subst hidx
      rw [hempty, if_pos rfl]
      rfl
    · have hold : ∃ l' ∈ hist, LeavesFilter ifindex l' linkIndex := by
        rcases exists_leaves_snoc.mp hl with hl | hl
        · exact hl
        · exact absurd hl.interface hidx
      rw [if_neg hidx, List.append_nil]
      exact h.left linkIndex hold
  · intro linkIndex hl
    rw [exists_leaves_snoc, not_or] at hl
    have hidx : ifindex l.cfg.networkInterface ≠ linkIndex := by
      intro hidx
      exact hl.2 (hidx ▸ hleaves)
    rw [filtersOn_append hx, ownFilter_linkIndex, if_neg hidx, List.append_nil]
    exact h.clean linkIndex hl.1

/-- A lifetime that leaves the filters as they were. -/
theorem Inventory.keep (h : Inventory ifindex hist n)
    (hnot : ¬ (n.filters.any (ownFilter ifindex l.cfg n).sameKey = false ∧
      LeavesFilter ifindex l (ifindex l.cfg.networkInterface)))
    (hx : x.filters = n.filters) : Inventory ifindex (hist ++ [l]) x := by
  have hsame : ∀ linkIndex, filtersOn x linkIndex = filtersOn n linkIndex := by
    intro linkIndex
    rw [filtersOn, filtersOn, hx]
  refine ⟨?_, ?_, ?_⟩
  · intro f hf
    rw [hx] at hf
    exact h.own f hf
  · intro linkIndex hl
    rw [hsame]
    rcases exists_leaves_snoc.mp hl with hl | hl
    · exact h.left linkIndex hl
    · -- the key was taken, so an earlier lifetime left the filter
      by_contra hlen
      have hclean := h.clean linkIndex fun hold => hlen (h.left linkIndex hold)
      obtain rfl := hl.interface
      exact hnot ⟨(free_iff h.own).mpr hclean, hl⟩
  · intro linkIndex hl
    rw [exists_leaves_snoc, not_or] at hl
    rw [hsame]
    exact h.clean linkIndex hl.1

/-- One more lifetime keeps the inventory. -/
theorem Inventory.step (h : Inventory ifindex hist n) (hx : Leftover ifindex l n x) :
    Inventory ifindex (hist ++ [l]) x := by
  rcases hx with ⟨hfree, hleaves, hx⟩ | ⟨hnot, hx⟩
  · exact h.grow hfree hleaves hx
  · exact h.keep hnot hx

end Step

theorem replay_inventory (hist : List Lifetime) :
    Inventory ifindex hist (replay o ifindex hist) := by
  induction hist using List.reverseRecOn with
  | nil =>
      refine ⟨?_, ?_, fun _ _ => rfl⟩
      · intro f hf
        exact absurd hf List.not_mem_nil
      · rintro linkIndex ⟨l, hl, _⟩
        exact absurd hl List.not_mem_nil
  | append_singleton hist l ih =>
      have hlast : replay o ifindex (hist ++ [l]) =
          main o ifindex l (replay o ifindex hist) := by
        simp [replay]
      rw [hlast]
      exact ih.step (main_leftover l _)

/-! ## Recovery -/

/-- With no external failure, only the address and the interface decide. -/
theorem recovers_iff_free {cfg : Config} {n : Node}
    (hown : ∀ f ∈ n.filters, ∃ id linkIndex, f = tcFilter id linkIndex) :
    Recovers o ifindex cfg n ↔
      (parseIP4 cfg.proxyIP).isSome ∧ filtersOn n (ifindex cfg.networkInterface) = [] := by
  constructor
  · rintro ⟨⟨m, hm⟩, _⟩
    have hstop := @newManager_stopped o ifindex noFault cfg n
    unfold Prog.wp at hstop
    rcases hstop with hinst | hstop
    · exact ⟨hinst.proxyIP, (free_iff hown).mp hinst.free⟩
    · exact absurd hm (hstop.noManager m)
  · rintro ⟨hparse, hempty⟩
    obtain ⟨ip, hip⟩ := Option.isSome_iff_exists.mp hparse
    have hinst : FilterInstalled ifindex noFault cfg n :=
      ⟨rfl, hparse, rfl, rfl, .inl rfl, rfl, (free_iff hown).mpr hempty⟩
    have hrun := @newManager_ok o ifindex noFault cfg n ip hinst hip rfl
    unfold Recovers
    rw [hrun]
    refine ⟨⟨_, rfl⟩, ?_⟩
    have hadded := @filtersOn_append n (afterAttach o ifindex noFault cfg ip n) _ rfl
      (ifindex cfg.networkInterface)
    rw [hadded, hempty, ownFilter_linkIndex, if_pos rfl]
    rfl

/-- A restart recovers exactly when the proxy address is an IPv4 address and no
earlier lifetime left its filter on the interface. -/
theorem restart_recovers_iff (o : ByteOrder) (ifindex : GoString → Nat) (hist : List Lifetime)
    (cfg : Config) :
    Recovers o ifindex cfg (replay o ifindex hist) ↔
      (parseIP4 cfg.proxyIP).isSome ∧
        ∀ l ∈ hist, ¬ LeavesFilter ifindex l (ifindex cfg.networkInterface) := by
  have hinv := @replay_inventory o ifindex hist
  rw [recovers_iff_free hinv.own]
  refine and_congr_right fun _ => ?_
  constructor
  · intro hempty l hl hleaves
    have hone := hinv.left _ ⟨l, hl, hleaves⟩
    rw [hempty] at hone
    exact absurd hone (by simp)
  · intro hnone
    exact hinv.clean _ fun ⟨l, hl, hleaves⟩ => hnone l hl hleaves

/-- A lifetime that starts up and is killed while it serves. -/
def killedServing : Lifetime := ⟨agentConfig, fun c => if c = .serve then .kill else .ok⟩

/-- After one kill, the restart with the same configuration fails. -/
theorem restart_fails_after_kill :
    (parseIP4 agentConfig.proxyIP).isSome ∧
      ¬ Recovers .little (fun _ => 2) agentConfig
        (replay .little (fun _ => 2) [killedServing]) := by
  refine ⟨by decide, ?_⟩
  have hinv := @replay_inventory .little (fun _ => 2) [killedServing]
  rw [recovers_iff_free hinv.own]
  rintro ⟨_, hempty⟩
  have hone := hinv.left 2 ⟨killedServing, by simp,
    ⟨rfl, by decide, rfl, rfl, rfl, .inl rfl, rfl, .inr (.inl ⟨rfl, by decide⟩)⟩⟩
  rw [hempty] at hone
  exact absurd hone (by simp)

end AiInterceptor.Theorems.Restart
