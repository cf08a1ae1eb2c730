import AiInterceptor.Lib.TSys

/-!
# Observations and simulations

What an observer notes down along a run is its trace: at each step the state before
it and the event. A simulation answers each step of one system by a run of another
that shows the same to the observers; whole runs are answered then, with the same
trace (`Simulates.run`). Two systems that take matching steps together stay related
(`run_lockstep`).
-/

namespace AiInterceptor.Lib

variable {S T E F O : Type}

/-- The observations along a run, in order. -/
def trace (step : S → E → Option S) (obs : S → E → List O) : S → List E → List O
  | _, [] => []
  | σ, e :: rest =>
      obs σ e ++ match step σ e with
        | none => []
        | some σ' => trace step obs σ' rest

section Trace

variable {step : S → E → Option S} {σ τ : S} {e : E} {es es' : List E}

@[simp] theorem trace_nil (step : S → E → Option S) (obs : S → E → List O) (σ : S) :
    trace step obs σ [] = [] := rfl

theorem trace_cons (obs : S → E → List O) (h : step σ e = some τ) :
    trace step obs σ (e :: es) = obs σ e ++ trace step obs τ es := by
  rw [trace, h]

theorem trace_append (obs : S → E → List O) (h : run step σ es = some τ) :
    trace step obs σ (es ++ es') = trace step obs σ es ++ trace step obs τ es' := by
  induction es generalizing σ with
  | nil =>
      rw [run_nil, Option.some.injEq] at h
      rw [h]
      rfl
  | cons e rest ih =>
      obtain ⟨ρ, hstep, hrest⟩ := run_cons.mp h
      rw [List.cons_append, trace_cons obs hstep, trace_cons obs hstep, ih hrest,
        List.append_assoc]

/-- One more step, one more observation. -/
theorem trace_snoc (obs : S → E → List O) (h : run step σ es = some τ) :
    trace step obs σ (es ++ [e]) = trace step obs σ es ++ obs τ e := by
  rw [trace_append obs h, trace]
  congr 1
  cases step τ e with
  | none => exact List.append_nil _
  | some ρ => exact List.append_nil _

/-- Everything noted down was noted at one of the events. -/
theorem mem_trace {obs : S → E → List O} {o : O} (h : o ∈ trace step obs σ es) :
    ∃ τ, ∃ e ∈ es, o ∈ obs τ e := by
  induction es generalizing σ with
  | nil => cases h
  | cons e rest ih =>
      rw [trace, List.mem_append] at h
      rcases h with hfirst | hrest
      · exact ⟨σ, e, List.mem_cons_self, hfirst⟩
      · cases hstep : step σ e with
        | none =>
            rw [hstep] at hrest
            cases hrest
        | some τ =>
            rw [hstep] at hrest
            obtain ⟨ρ, e', hmem, ho⟩ := ih hrest
            exact ⟨ρ, e', List.mem_cons_of_mem _ hmem, ho⟩

/-- An observer who only looks at the events. -/
theorem trace_events (f : E → List O) (h : run step σ es = some τ) :
    trace step (fun _ e => f e) σ es = es.flatMap f := by
  induction es generalizing σ with
  | nil => rfl
  | cons e rest ih =>
      obtain ⟨ρ, hstep, hrest⟩ := run_cons.mp h
      rw [trace_cons _ hstep, ih hrest, List.flatMap_cons]

/-- An observer who only keeps part of what another one notes down. -/
theorem filterMap_trace {O' : Type} (obs : S → E → List O) (f : O → Option O') :
    (trace step obs σ es).filterMap f =
      trace step (fun τ e => (obs τ e).filterMap f) σ es := by
  induction es generalizing σ with
  | nil => rfl
  | cons e rest ih =>
      rw [trace, trace, List.filterMap_append]
      congr 1
      cases step σ e with
      | none => rfl
      | some τ => exact ih

/-- Invariants that mention the run that has led to a state, and so its traces. -/
theorem run_from {P : List E → S → Prop} (hstart : P [] σ)
    (hstep : ∀ hist τ e τ', run step σ hist = some τ → P hist τ → step τ e = some τ' →
      P (hist ++ [e]) τ')
    (hrun : run step σ es = some τ) : P es τ := by
  have h := @run_history S E step (fun hist ρ => run step σ hist = some ρ ∧ P hist ρ)
    ?_ [] σ τ es ⟨rfl, hstart⟩ hrun
  · exact h.2
  · rintro hist ρ e ρ' ⟨hhist, hP⟩ he
    refine ⟨run_append.mpr ⟨ρ, hhist, run_cons.mpr ⟨ρ', he, rfl⟩⟩, ?_⟩
    exact hstep hist ρ e ρ' hhist hP he

/-! ## Logs that explain themselves -/

/-- Every entry of a log is justified by those in front of it. -/
def Justified (J : List O → O → Prop) (log : List O) : Prop :=
  ∀ pre o post, log = pre ++ o :: post → J pre o

theorem justified_nil (J : List O → O → Prop) : Justified J [] := by
  intro pre o post heq
  simp at heq

theorem Justified.snoc {J : List O → O → Prop} {log : List O} {o : O} (h : Justified J log)
    (ho : J log o) : Justified J (log ++ [o]) := by
  intro pre p post heq
  rcases List.append_eq_append_iff.mp heq with ⟨a, rfl, ha⟩ | ⟨c, rfl, hc⟩
  · cases a with
    | nil =>
        obtain ⟨rfl, _⟩ := List.cons.inj ha
        rwa [List.append_nil]
    | cons b a => simp at ha
  · cases c with
    | nil =>
        obtain ⟨rfl, _⟩ := List.cons.inj hc
        rwa [List.append_nil] at ho
    | cons b c =>
        obtain ⟨rfl, _⟩ := List.cons.inj hc
        exact h pre p c rfl

end Trace

/-- Related states: each step of the first system is answered by a run of the second
that ends in a related state and shows what the step shows. -/
structure Simulates (step : S → E → Option S) (obs : S → E → List O)
    (step' : T → F → Option T) (shows : F → List O) (R : S → T → Prop) : Prop where
  square : ∀ σ τ e σ', R σ τ → step σ e = some σ' →
    ∃ fs τ', run step' τ fs = some τ' ∧ R σ' τ' ∧ fs.flatMap shows = obs σ e

theorem Simulates.run {step : S → E → Option S} {obs : S → E → List O}
    {step' : T → F → Option T} {shows : F → List O} {R : S → T → Prop}
    (h : Simulates step obs step' shows R) {σ σ' : S} {τ : T} {es : List E} (hR : R σ τ)
    (hrun : run step σ es = some σ') :
    ∃ fs τ', Lib.run step' τ fs = some τ' ∧ R σ' τ' ∧ fs.flatMap shows = trace step obs σ es := by
  induction es generalizing σ τ with
  | nil =>
      rw [run_nil, Option.some.injEq] at hrun
      subst hrun
      exact ⟨[], τ, rfl, hR, rfl⟩
  | cons e rest ih =>
      obtain ⟨ρ, hstep, hrest⟩ := run_cons.mp hrun
      obtain ⟨fs, τ₁, hfs, hR₁, hshow⟩ := h.square σ τ e ρ hR hstep
      obtain ⟨gs, τ₂, hgs, hR₂, hshow'⟩ := ih hR₁ hrest
      refine ⟨fs ++ gs, τ₂, run_append.mpr ⟨τ₁, hfs, hgs⟩, hR₂, ?_⟩
      rw [List.flatMap_append, hshow, hshow', trace_cons obs hstep]

/-- Two systems in lockstep: matching events keep states related, so a run of the first
system is a run of the second one over any matching events. -/
theorem run_lockstep {step : S → E → Option S} {step' : T → F → Option T} {R : S → T → Prop}
    {M : E → F → Prop}
    (hstep : ∀ σ τ e f σ', R σ τ → M e f → step σ e = some σ' →
      ∃ τ', step' τ f = some τ' ∧ R σ' τ')
    {σ σ' : S} {τ : T} {es : List E} {fs : List F} (hR : R σ τ) (hM : List.Forall₂ M es fs)
    (hrun : run step σ es = some σ') : ∃ τ', run step' τ fs = some τ' ∧ R σ' τ' := by
  induction hM generalizing σ τ with
  | nil =>
      rw [run_nil, Option.some.injEq] at hrun
      subst hrun
      exact ⟨τ, rfl, hR⟩
  | cons he _ ih =>
      obtain ⟨ρ, hfirst, hrest⟩ := run_cons.mp hrun
      obtain ⟨τ₁, hfirst', hR₁⟩ := hstep _ _ _ _ ρ hR he hfirst
      obtain ⟨τ₂, hrest', hR₂⟩ := ih hR₁ hrest
      exact ⟨τ₂, run_cons.mpr ⟨τ₁, hfirst', hrest'⟩, hR₂⟩

end AiInterceptor.Lib
