import Mathlib

/-!
# Runs of an event-driven system

A system is a partial step function: an event either moves a state to its
successor or is not enabled. `run` plays a finite list of events. The rules
below are the only inductions over runs the rest of the development needs:

* `run_history` — an invariant that may mention the whole history of events;
* `run_invariant` — its special case for a predicate on states.
-/

namespace AiInterceptor.Lib

variable {S E : Type}

/-- Play a list of events; `none` as soon as one of them is not enabled. -/
def run (step : S → E → Option S) : S → List E → Option S
  | σ, [] => some σ
  | σ, e :: rest => (step σ e).bind fun σ' => run step σ' rest

@[simp] theorem run_nil (step : S → E → Option S) (σ : S) : run step σ [] = some σ := rfl

theorem run_cons {step : S → E → Option S} {σ σ' : S} {e : E} {es : List E} :
    run step σ (e :: es) = some σ' ↔ ∃ τ, step σ e = some τ ∧ run step τ es = some σ' := by
  rw [run, Option.bind_eq_some_iff]

/-- A run over a concatenation passes through the state in between. -/
theorem run_append {step : S → E → Option S} {σ σ' : S} {es es' : List E} :
    run step σ (es ++ es') = some σ' ↔
      ∃ τ, run step σ es = some τ ∧ run step τ es' = some σ' := by
  induction es generalizing σ with
  | nil => simp
  | cons e rest ih =>
      rw [List.cons_append, run_cons]
      constructor
      · rintro ⟨ρ, hstep, hrun⟩
        obtain ⟨τ, hfirst, hsecond⟩ := ih.mp hrun
        exact ⟨τ, run_cons.mpr ⟨ρ, hstep, hfirst⟩, hsecond⟩
      · rintro ⟨τ, hfirst, hsecond⟩
        obtain ⟨ρ, hstep, hrest⟩ := run_cons.mp hfirst
        exact ⟨ρ, hstep, ih.mpr ⟨τ, hrest, hsecond⟩⟩

/-- Invariants over histories: a predicate of the events played so far and the
state they led to, kept by every step, holds at the end of every run. -/
theorem run_history {step : S → E → Option S} {P : List E → S → Prop}
    (hstep : ∀ hist σ e σ', P hist σ → step σ e = some σ' → P (hist ++ [e]) σ')
    {hist : List E} {σ σ' : S} {es : List E} (h : P hist σ)
    (hrun : run step σ es = some σ') : P (hist ++ es) σ' := by
  induction es generalizing hist σ with
  | nil =>
      rw [run_nil, Option.some.injEq] at hrun
      rw [List.append_nil]
      exact hrun ▸ h
  | cons e rest ih =>
      obtain ⟨τ, he, hrest⟩ := run_cons.mp hrun
      have htail := ih (hstep hist σ e τ h he) hrest
      rwa [List.append_assoc, List.singleton_append] at htail

/-- Invariants over states. -/
theorem run_invariant {step : S → E → Option S} {P : S → Prop}
    (hstep : ∀ σ e σ', P σ → step σ e = some σ' → P σ')
    {σ σ' : S} {es : List E} (h : P σ) (hrun : run step σ es = some σ') : P σ' :=
  @run_history S E step (fun _ τ => P τ) (fun _ τ e τ' => hstep τ e τ') [] σ σ' es h hrun

end AiInterceptor.Lib
