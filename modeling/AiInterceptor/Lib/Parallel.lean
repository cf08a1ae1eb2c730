import AiInterceptor.Lib.TSys

/-!
# Interleaved components

A pool starts empty. A step adds a component in its initial state, or lets one of
those there take a step of its own; the order is arbitrary. A component in a fatal
state stops the pool. What a component goes through in a pool is a run of its own
(`pool_own`), and a run of its own can be played in the pool (`pool_plays`).
-/

namespace AiInterceptor.Lib

variable {S E : Type}

inductive PoolEvent (E : Type)
  | spawn
  | on (i : Nat) (e : E)
  deriving DecidableEq, Repr

/-- What an event says to the component `i`. -/
def PoolEvent.own (i : Nat) : PoolEvent E → Option E
  | .spawn => none
  | .on j e => if j = i then some e else none

def poolStep (fatal : S → Bool) (init : S) (step : S → E → Option S) (pool : List S)
    (ev : PoolEvent E) : Option (List S) :=
  if pool.any fatal then none
  else match ev with
    | .spawn => some (pool ++ [init])
    | .on i e => pool[i]?.bind fun s => (step s e).map (pool.set i)

section Pool

variable {fatal : S → Bool} {init : S} {step : S → E → Option S} {pool pool' : List S}
  {ev : PoolEvent E}

/-- Everything one step can do to a pool. -/
theorem poolStep_cases (h : poolStep fatal init step pool ev = some pool') :
    (∀ s ∈ pool, fatal s = false) ∧
      ((ev = .spawn ∧ pool' = pool ++ [init]) ∨
        ∃ i e s s', ev = .on i e ∧ pool[i]? = some s ∧ step s e = some s' ∧
          pool' = pool.set i s') := by
  unfold poolStep at h
  split at h
  · cases h
  · rename_i hfatal
    refine ⟨?_, ?_⟩
    · intro s hs
      by_contra hf
      exact hfatal (List.any_eq_true.mpr ⟨s, hs, by simpa using hf⟩)
    · cases ev with
      | spawn => exact .inl ⟨rfl, (Option.some.inj h).symm⟩
      | on i e =>
          obtain ⟨s, hs, hmap⟩ := Option.bind_eq_some_iff.mp h
          obtain ⟨s', hstep, rfl⟩ := Option.map_eq_some_iff.mp hmap
          exact .inr ⟨i, e, s, s', rfl, hs, hstep, rfl⟩

theorem own_spawn (hist : List (PoolEvent E)) (i : Nat) :
    (hist ++ [PoolEvent.spawn]).filterMap (PoolEvent.own i) =
      hist.filterMap (PoolEvent.own i) := by
  rw [List.filterMap_append]
  exact List.append_nil _

theorem own_self (hist : List (PoolEvent E)) (i : Nat) (e : E) :
    (hist ++ [PoolEvent.on i e]).filterMap (PoolEvent.own i) =
      hist.filterMap (PoolEvent.own i) ++ [e] := by
  have hown : PoolEvent.own i (PoolEvent.on i e) = some e := if_pos rfl
  rw [List.filterMap_append, List.filterMap_cons_some hown]
  rfl

theorem own_ne {i j : Nat} (h : j ≠ i) (hist : List (PoolEvent E)) (e : E) :
    (hist ++ [PoolEvent.on j e]).filterMap (PoolEvent.own i) =
      hist.filterMap (PoolEvent.own i) := by
  have hown : PoolEvent.own i (PoolEvent.on j e) = none := if_neg h
  rw [List.filterMap_append, List.filterMap_cons_none hown]
  exact List.append_nil _

/-- Every component has made a run of its own events, and there are no others. -/
def Separate (init : S) (step : S → E → Option S) (hist : List (PoolEvent E))
    (pool : List S) : Prop :=
  (∀ i s, pool[i]? = some s → run step init (hist.filterMap (PoolEvent.own i)) = some s) ∧
    ∀ i, pool.length ≤ i → hist.filterMap (PoolEvent.own i) = []

theorem separate_step {hist : List (PoolEvent E)} (h : Separate init step hist pool)
    (hstep : poolStep fatal init step pool ev = some pool') :
    Separate init step (hist ++ [ev]) pool' := by
  obtain ⟨hown, hnone⟩ := h
  rcases (poolStep_cases hstep).2 with ⟨rfl, rfl⟩ | ⟨j, e, s, s', rfl, hs, he, rfl⟩
  · refine ⟨?_, ?_⟩
    · intro i s hi
      rw [own_spawn]
      by_cases hlen : i < pool.length
      · rw [List.getElem?_append_left hlen] at hi
        exact hown i s hi
      · rw [List.getElem?_append_right (by omega), List.getElem?_singleton] at hi
        split at hi
        · rw [hnone i (by omega), run_nil]
          exact hi
        · cases hi
    · intro i hi
      rw [List.length_append] at hi
      rw [own_spawn]
      exact hnone i (by omega)
  · have hlt : j < pool.length := (List.getElem?_eq_some_iff.mp hs).1
    refine ⟨?_, ?_⟩
    · intro i t hi
      by_cases hij : j = i
      · subst hij
        rw [List.getElem?_set_self hlt, Option.some.injEq] at hi
        subst hi
        rw [own_self]
        exact run_append.mpr ⟨s, hown j s hs, run_cons.mpr ⟨s', he, rfl⟩⟩
      · rw [List.getElem?_set_ne hij] at hi
        rw [own_ne hij]
        exact hown i t hi
    · intro i hi
      rw [List.length_set] at hi
      rw [own_ne (by omega)]
      exact hnone i hi

theorem pool_own {es : List (PoolEvent E)}
    (hrun : run (poolStep fatal init step) [] es = some pool) : Separate init step es pool := by
  have hempty : Separate init step [] [] := by
    refine ⟨?_, fun _ _ => rfl⟩
    intro i s hi
    cases hi
  exact run_history (fun _ _ _ _ h hstep => separate_step h hstep) hempty hrun

/-- Components stay. -/
theorem pool_grows {es : List (PoolEvent E)}
    (hrun : run (poolStep fatal init step) pool es = some pool') : pool.length ≤ pool'.length := by
  refine run_invariant (P := fun p => pool.length ≤ p.length) ?_ (Nat.le_refl _) hrun
  intro p e p' hp hstep
  rcases (poolStep_cases hstep).2 with ⟨_, rfl⟩ | ⟨i, e, s, s', _, _, _, rfl⟩
  · rw [List.length_append]
    omega
  · rw [List.length_set]
    exact hp

/-- A pool with no fatal component plays what one of them can do, as long as it does
not turn fatal on the way. -/
theorem pool_plays {i : Nat} {s s' : S} {es : List E} {P : S → Prop}
    (hcalm : ∀ t ∈ pool, fatal t = false) (hi : pool[i]? = some s)
    (hP : ∀ t, P t → fatal t = false) (hstep : ∀ t e t', P t → step t e = some t' → P t')
    (hs : P s) (hrun : run step s es = some s') :
    run (poolStep fatal init step) pool (es.map (.on i)) = some (pool.set i s') := by
  induction es generalizing pool s with
  | nil =>
      rw [run_nil, Option.some.injEq] at hrun
      subst hrun
      obtain ⟨hlt, rfl⟩ := List.getElem?_eq_some_iff.mp hi
      rw [List.map_nil, run_nil, List.set_getElem_self hlt]
  | cons e rest ih =>
      obtain ⟨t, he, hrest⟩ := run_cons.mp hrun
      have ht := hstep s e t hs he
      have hlt : i < pool.length := (List.getElem?_eq_some_iff.mp hi).1
      have hnot : ¬ pool.any fatal = true := by
        rw [List.any_eq_true]
        rintro ⟨u, hu, hf⟩
        rw [hcalm u hu] at hf
        cases hf
      have hfirst : poolStep fatal init step pool (.on i e) = some (pool.set i t) := by
        rw [poolStep, if_neg hnot]
        show pool[i]?.bind _ = _
        rw [hi, Option.bind_some, he]
        rfl
      have hcalm' : ∀ u ∈ pool.set i t, fatal u = false := by
        intro u hu
        rcases List.mem_or_eq_of_mem_set hu with hold | rfl
        · exact hcalm u hold
        · exact hP u ht
      have hlater := ih hcalm' (List.getElem?_set_self hlt) ht hrest
      rw [List.set_set] at hlater
      exact run_cons.mpr ⟨_, hfirst, hlater⟩

end Pool

end AiInterceptor.Lib
