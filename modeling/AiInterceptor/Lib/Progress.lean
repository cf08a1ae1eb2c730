import AiInterceptor.Lib.TSys

/-!
# Work that gets done

Some of a system's events work off what there is to do: each of them lowers a measure
by one, and one of them is enabled as long as the measure is not zero. Then runs of
such events are as long as the work they get done, whatever their order (`spent`), and
from every state they come to an end (`finishes`).
-/

namespace AiInterceptor.Lib

variable {S E : Type}

/-- `worker` says which events do the work, `Inv` is what the states keep. -/
structure WorksOff (step : S → E → Option S) (worker : E → Prop) (Inv : S → Prop)
    (work : S → Nat) : Prop where
  spends : ∀ σ e σ', Inv σ → worker e → step σ e = some σ' → Inv σ' ∧ work σ' + 1 = work σ
  enabled : ∀ σ, Inv σ → 0 < work σ → ∃ e σ', worker e ∧ step σ e = some σ'

namespace WorksOff

variable {step : S → E → Option S} {worker : E → Prop} {Inv : S → Prop} {work : S → Nat}
  {σ τ : S} {es : List E}

theorem spent (h : WorksOff step worker Inv work) (hσ : Inv σ) (hes : ∀ e ∈ es, worker e)
    (hrun : run step σ es = some τ) : Inv τ ∧ es.length + work τ = work σ := by
  induction es generalizing σ with
  | nil =>
      rw [run_nil, Option.some.injEq] at hrun
      subst hrun
      exact ⟨hσ, Nat.zero_add _⟩
  | cons e rest ih =>
      obtain ⟨ρ, hstep, hrest⟩ := run_cons.mp hrun
      obtain ⟨hρ, hwork⟩ := h.spends σ e ρ hσ (hes e List.mem_cons_self) hstep
      obtain ⟨hτ, htotal⟩ := ih hρ (fun e' he' => hes e' (List.mem_cons_of_mem e he')) hrest
      refine ⟨hτ, ?_⟩
      rw [List.length_cons]
      omega

theorem finishes (h : WorksOff step worker Inv work) (hσ : Inv σ) :
    ∃ es τ, (∀ e ∈ es, worker e) ∧ run step σ es = some τ ∧ Inv τ ∧ work τ = 0 := by
  induction hn : work σ generalizing σ with
  | zero => exact ⟨[], σ, fun e he => absurd he List.not_mem_nil, rfl, hσ, hn⟩
  | succ n ih =>
      obtain ⟨e, ρ, he, hstep⟩ := h.enabled σ hσ (by omega)
      obtain ⟨hρ, hwork⟩ := h.spends σ e ρ hσ he hstep
      obtain ⟨es, τ, hes, hrun, hτ, hzero⟩ := ih hρ (by omega)
      refine ⟨e :: es, τ, ?_, run_cons.mpr ⟨ρ, hstep, hrun⟩, hτ, hzero⟩
      intro e' he'
      rcases List.mem_cons.mp he' with rfl | he'
      · exact he
      · exact hes e' he'

end WorksOff

end AiInterceptor.Lib
