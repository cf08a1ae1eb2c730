import AiInterceptor.Proxy.Relay

/-!
# When the relay is torn down

The handler returns at the first result of either copier, so the relay is torn
down in one piece exactly when the direction that ends first has the other one
already behind it. As long as every copier that ends finds the other direction
finished, nothing is lost; where one does not, the very next step of the handler
cuts the other direction off.
-/

namespace AiInterceptor.Theorems.Teardown

open Lib Proxy Proxy.Relay

/-- The direction has reached its source's end of file with everything delivered,
or has failed. -/
def Finished (p : Pipe) : Prop :=
  p.failed = true ∨ (p.closed = true ∧ p.inbound = [] ∧ p.buf = [])

/-- The copier's last step. -/
def Ends (e : PipeEvent) : Prop := e = .eof ∨ e = .fail

/-! ## One pipe -/

section Pipe

variable {torn : Bool} {p p' : Pipe} {e : PipeEvent}

/-- No byte is lost or reordered inside a pipe. -/
def Conserved (p : Pipe) : Prop := p.delivered ++ p.buf ++ p.inbound = p.sent

/-- Everything one step can do to a pipe. -/
theorem pipe_step_cases (h : Pipe.step torn p e = some p') :
    (∃ bytes, e = .send bytes ∧ p.closed = false ∧
      p' = { p with sent := p.sent ++ bytes, inbound := p.inbound ++ bytes }) ∨
    (e = .halfClose ∧ p.closed = false ∧ p' = { p with closed := true }) ∨
    (∃ n, e = .read n ∧ p.done = false ∧ p.buf = [] ∧ 0 < n ∧ n ≤ p.inbound.length ∧
      p' = { p with buf := p.inbound.take n, inbound := p.inbound.drop n }) ∨
    (e = .write ∧ p.done = false ∧ p' = { p with delivered := p.delivered ++ p.buf, buf := [] }) ∨
    (e = .eof ∧ p.buf = [] ∧ p.inbound = [] ∧ p.closed = true ∧ p' = { p with done := true }) ∨
    (e = .fail ∧ p' = { p with done := true, failed := true }) := by
  cases e with
  | send bytes =>
      simp only [Pipe.step] at h
      split at h
      · cases h
      · rename_i hc
        exact Or.inl ⟨bytes, rfl, by simpa using hc, (Option.some.inj h).symm⟩
  | halfClose =>
      simp only [Pipe.step] at h
      split at h
      · cases h
      · rename_i hc
        exact Or.inr (Or.inl ⟨rfl, by simpa using hc, (Option.some.inj h).symm⟩)
  | read n =>
      simp only [Pipe.step] at h
      split at h
      · cases h
      · rename_i hc
        simp only [not_or, ne_eq, not_not, Nat.not_lt, Bool.not_eq_true] at hc
        obtain ⟨_, hdone, hbuf, hn, _, hlen⟩ := hc
        refine Or.inr (Or.inr (Or.inl ⟨n, rfl, hdone, hbuf, by omega, hlen, ?_⟩))
        exact (Option.some.inj h).symm
  | write =>
      simp only [Pipe.step] at h
      split at h
      · cases h
      · rename_i hc
        simp only [not_or, Bool.not_eq_true] at hc
        exact Or.inr (Or.inr (Or.inr (Or.inl ⟨rfl, hc.2.1, (Option.some.inj h).symm⟩)))
  | eof =>
      simp only [Pipe.step] at h
      split at h
      · cases h
      · rename_i hc
        simp only [not_or, ne_eq, not_not, Bool.not_eq_true, Bool.not_eq_false] at hc
        obtain ⟨_, _, hbuf, hin, hclosed⟩ := hc
        exact Or.inr (Or.inr (Or.inr (Or.inr (Or.inl
          ⟨rfl, hbuf, hin, hclosed, (Option.some.inj h).symm⟩))))
  | fail =>
      simp only [Pipe.step] at h
      split at h
      · cases h
      · exact Or.inr (Or.inr (Or.inr (Or.inr (Or.inr ⟨rfl, (Option.some.inj h).symm⟩))))

theorem Conserved.step (hp : Conserved p) (h : Pipe.step torn p e = some p') : Conserved p' := by
  unfold Conserved at hp ⊢
  rcases pipe_step_cases h with ⟨bytes, _, _, rfl⟩ | ⟨_, _, rfl⟩ | ⟨n, _, _, hbuf, _, _, rfl⟩ |
    ⟨_, _, rfl⟩ | ⟨_, _, _, _, rfl⟩ | ⟨_, rfl⟩
  · show p.delivered ++ p.buf ++ (p.inbound ++ bytes) = p.sent ++ bytes
    rw [← List.append_assoc, hp]
  · exact hp
  · show p.delivered ++ p.inbound.take n ++ p.inbound.drop n = p.sent
    rw [hbuf, List.append_nil] at hp
    rw [List.append_assoc, List.take_append_drop, hp]
  · show p.delivered ++ p.buf ++ [] ++ p.inbound = p.sent
    rw [List.append_nil, hp]
  · exact hp
  · exact hp

/-- A finished direction stays finished: its source is closed for good. -/
theorem Finished.step (hp : Finished p) (h : Pipe.step torn p e = some p') : Finished p' := by
  rcases pipe_step_cases h with ⟨bytes, _, hopen, rfl⟩ | ⟨_, hopen, rfl⟩ |
    ⟨n, _, _, _, hn, hlen, rfl⟩ | ⟨_, _, rfl⟩ | ⟨_, hbuf, hin, hclosed, rfl⟩ | ⟨_, rfl⟩
  · rcases hp with hfail | ⟨hclosed, _⟩
    · exact Or.inl hfail
    · rw [hopen] at hclosed
      cases hclosed
  · rcases hp with hfail | ⟨hclosed, _⟩
    · exact Or.inl hfail
    · rw [hopen] at hclosed
      cases hclosed
  -- nothing is left to read
  · rcases hp with hfail | ⟨_, hin, _⟩
    · exact Or.inl hfail
    · rw [hin] at hlen
      exact absurd hlen (by simp; omega)
  · rcases hp with hfail | ⟨hclosed, hin, _⟩
    · exact Or.inl hfail
    · exact Or.inr ⟨hclosed, hin, rfl⟩
  · exact Or.inr ⟨hclosed, hin, hbuf⟩
  · exact Or.inl rfl

/-- A copier is done only by one of its last steps. -/
theorem done_step (h : Pipe.step torn p e = some p') (hdone : p'.done = true) :
    p.done = true ∨ (Ends e ∧ Finished p') := by
  rcases pipe_step_cases h with ⟨bytes, _, _, rfl⟩ | ⟨_, _, rfl⟩ | ⟨n, _, _, _, _, _, rfl⟩ |
    ⟨_, _, rfl⟩ | ⟨rfl, hbuf, hin, hclosed, rfl⟩ | ⟨rfl, rfl⟩
  · exact Or.inl hdone
  · exact Or.inl hdone
  · exact Or.inl hdone
  · exact Or.inl hdone
  · exact Or.inr ⟨Or.inl rfl, Or.inr ⟨hclosed, hin, hbuf⟩⟩
  · exact Or.inr ⟨Or.inr rfl, Or.inl rfl⟩

theorem done_stays (h : Pipe.step torn p e = some p') (hdone : p.done = true) :
    p'.done = true := by
  rcases pipe_step_cases h with ⟨bytes, _, _, rfl⟩ | ⟨_, _, rfl⟩ | ⟨n, _, _, _, _, _, rfl⟩ |
    ⟨_, _, rfl⟩ | ⟨_, _, _, _, rfl⟩ | ⟨_, rfl⟩
  · exact hdone
  · exact hdone
  · exact hdone
  · exact hdone
  · rfl
  · rfl

theorem failed_step (h : Pipe.step torn p e = some p') (hfail : p'.failed = true) :
    p.failed = true ∨ e = .fail := by
  rcases pipe_step_cases h with ⟨bytes, _, _, rfl⟩ | ⟨_, _, rfl⟩ | ⟨n, _, _, _, _, _, rfl⟩ |
    ⟨_, _, rfl⟩ | ⟨_, _, _, _, rfl⟩ | ⟨rfl, rfl⟩
  · exact Or.inl hfail
  · exact Or.inl hfail
  · exact Or.inl hfail
  · exact Or.inl hfail
  · exact Or.inl hfail
  · exact Or.inr rfl

/-- A copier ends only while the connections are open. -/
theorem ends_step (h : Pipe.step torn p e = some p') (he : Ends e) :
    torn = false ∧ p'.done = true := by
  rcases he with rfl | rfl
  · simp only [Pipe.step] at h
    split at h
    · cases h
    · rename_i hc
      simp only [not_or, Bool.not_eq_true] at hc
      obtain rfl := Option.some.inj h
      exact ⟨hc.1, rfl⟩
  · simp only [Pipe.step] at h
    split at h
    · cases h
    · rename_i hc
      simp only [not_or, Bool.not_eq_true] at hc
      obtain rfl := Option.some.inj h
      exact ⟨hc.1, rfl⟩

end Pipe

/-! ## The relay -/

/-- A step of the relay is a step of one pipe, or the teardown. -/
theorem relay_step_cases {σ σ' : Relay} {ev : Event} (h : step σ ev = some σ') :
    (∃ d e p', ev = .on d e ∧ Pipe.step σ.torn (σ.pipe d) e = some p' ∧ σ' = σ.setPipe d p') ∨
      (ev = .teardown ∧ (∃ d, (σ.pipe d).done = true) ∧ σ' = { σ with torn := true }) := by
  cases ev with
  | on d e =>
      obtain ⟨p', hp, rfl⟩ := Option.map_eq_some_iff.mp h
      exact Or.inl ⟨d, e, p', rfl, hp, rfl⟩
  | teardown =>
      simp only [Relay.step] at h
      split at h
      · rename_i hc
        refine Or.inr ⟨rfl, ?_, (Option.some.inj h).symm⟩
        rcases hc.2 with hup | hdown
        · exact ⟨.up, hup⟩
        · exact ⟨.down, hdown⟩
      · cases h

/-- A property of pipes that every step keeps is kept by the relay. -/
theorem pipes_step {σ σ' : Relay} {ev : Event} {P : Pipe → Prop}
    (hP : ∀ torn p e p', P p → Pipe.step torn p e = some p' → P p')
    (h : step σ ev = some σ') (d : Dir) (hd : P (σ.pipe d)) : P (σ'.pipe d) := by
  rcases relay_step_cases h with ⟨d', e, p', rfl, hp, rfl⟩ | ⟨rfl, _, rfl⟩
  · rcases dir_cases d' d with rfl | rfl
    · rw [pipe_setPipe_self]
      exact hP _ _ _ _ hd hp
    · rw [pipe_setPipe_other]
      exact hd
  · cases d
    · exact hd
    · exact hd

/-- What every run keeps. -/
structure Inv (hist : List Event) (σ : Relay) : Prop where
  conserved : ∀ d, Conserved (σ.pipe d)
  torn : σ.torn = true → ∃ d, (σ.pipe d).done = true
  failed : ∀ d, (σ.pipe d).failed = true → .on d .fail ∈ hist

theorem inv_start (peeked : List UInt8) : Inv [] (start peeked) := by
  refine ⟨?_, ?_, ?_⟩
  · intro d
    cases d with
    | up =>
        show peeked ++ [] ++ [] = peeked
        rw [List.append_nil, List.append_nil]
    | down => rfl
  · intro h
    cases h
  · intro d h
    cases d with
    | up => cases h
    | down => cases h

theorem Inv.step {hist : List Event} {σ σ' : Relay} {ev : Event} (h : Inv hist σ)
    (hstep : step σ ev = some σ') : Inv (hist ++ [ev]) σ' := by
  have hdone : ∀ d, (σ.pipe d).done = true → (σ'.pipe d).done = true := fun d =>
    pipes_step (P := fun p => p.done = true) (fun _ _ _ _ hd hs => done_stays hs hd) hstep d
  refine ⟨?_, ?_, ?_⟩
  · intro d
    exact pipes_step (fun _ _ _ _ hc hs => Conserved.step hc hs) hstep d (h.conserved d)
  · intro htorn
    rcases relay_step_cases hstep with ⟨d', e, p', rfl, hp, rfl⟩ | ⟨rfl, ⟨d, hd⟩, _⟩
    · rw [torn_setPipe] at htorn
      obtain ⟨d, hd⟩ := h.torn htorn
      exact ⟨d, hdone d hd⟩
    · exact ⟨d, hdone d hd⟩
  · intro d hfail
    rcases relay_step_cases hstep with ⟨d', e, p', rfl, hp, rfl⟩ | ⟨rfl, _, rfl⟩
    · rcases dir_cases d' d with rfl | rfl
      · rw [pipe_setPipe_self] at hfail
        rcases failed_step hp hfail with hold | rfl
        · exact List.mem_append_left _ (h.failed d hold)
        · exact List.mem_append_right _ (List.mem_singleton.mpr rfl)
      · rw [pipe_setPipe_other] at hfail
        exact List.mem_append_left _ (h.failed _ hfail)
    · refine List.mem_append_left _ (h.failed d ?_)
      cases d
      · exact hfail
      · exact hfail

theorem inv_run {peeked : List UInt8} {es : List Event} {σ : Relay}
    (hrun : run step (start peeked) es = some σ) : Inv es σ :=
  run_history (fun _ _ _ _ h hstep => Inv.step h hstep) (inv_start peeked) hrun

/-- Every copier of the run that ends finds the other direction finished. -/
def EndsLast (peeked : List UInt8) (es : List Event) : Prop :=
  ∀ pre d e post τ, es = pre ++ .on d e :: post → Ends e →
    run step (start peeked) pre = some τ → Finished (τ.pipe d.other)

/-- Once one copier is done, both directions are finished. -/
def BothFinished (σ : Relay) : Prop :=
  ∀ d, (σ.pipe d).done = true → ∀ d', Finished (σ.pipe d')

theorem BothFinished.step {σ σ' : Relay} {ev : Event} (h : BothFinished σ)
    (hstep : step σ ev = some σ')
    (hends : ∀ d e, ev = .on d e → Ends e → Finished (σ.pipe d.other)) : BothFinished σ' := by
  have hstays : (∀ d', Finished (σ.pipe d')) → ∀ d', Finished (σ'.pipe d') := fun hall d' =>
    pipes_step (fun _ _ _ _ hf hs => Finished.step hf hs) hstep d' (hall d')
  intro d hd
  rcases relay_step_cases hstep with ⟨d₀, e, p', rfl, hp, rfl⟩ | ⟨rfl, ⟨d₀, hd₀⟩, _⟩
  · rcases dir_cases d₀ d with rfl | rfl
    · rw [pipe_setPipe_self] at hd
      rcases done_step hp hd with hold | ⟨he, hfin⟩
      · exact hstays (h d hold)
      · -- the copier ended in this very step
        intro d'
        rcases dir_cases d d' with rfl | rfl
        · rw [pipe_setPipe_self]
          exact hfin
        · rw [pipe_setPipe_other]
          exact hends d e rfl he
    · rw [pipe_setPipe_other] at hd
      exact hstays (h _ hd)
  · exact hstays (h d₀ hd₀)

theorem bothFinished_run {peeked : List UInt8} {es : List Event} {σ : Relay}
    (hrun : run step (start peeked) es = some σ) (hlast : EndsLast peeked es) :
    BothFinished σ := by
  have hinv := @run_history Relay Event step
    (fun hist τ => run step (start peeked) hist = some τ ∧
      (EndsLast peeked hist → BothFinished τ)) ?_ [] (start peeked) σ es ?_ hrun
  · exact hinv.2 hlast
  · rintro hist τ ev τ' ⟨hτ, h⟩ hstep
    refine ⟨run_append.mpr ⟨τ, hτ, run_cons.mpr ⟨τ', hstep, rfl⟩⟩, ?_⟩
    intro hends
    refine (h ?_).step hstep ?_
    · intro pre d e post ρ hes
      exact hends pre d e (post ++ [ev]) ρ (by rw [hes]; simp)
    · rintro d e rfl he
      exact hends hist d e [] τ rfl he hτ
  · refine ⟨rfl, fun _ d hd => ?_⟩
    cases d with
    | up => cases hd
    | down => cases hd

/-- In a run whose copiers all end last, the connections are closed only with both
directions finished, and without failures everything that was sent is delivered.
Wherever a copier can end before the other direction is finished, its end and the
handler's return close the connections on an unfinished direction. -/
theorem teardown_only_when_finished (peeked : List UInt8) (es : List Event) (σ : Relay)
    (hrun : run step (start peeked) es = some σ) :
    (EndsLast peeked es →
      (σ.torn = true → ∀ d, Finished (σ.pipe d)) ∧
      ((∀ d, .on d .fail ∉ es) → σ.torn = true →
        ∀ d, (σ.pipe d).closed = true ∧ (σ.pipe d).delivered = (σ.pipe d).sent)) ∧
    (∀ d e, Ends e → (step σ (.on d e)).isSome → ¬ Finished (σ.pipe d.other) →
      ∃ σ', run step (start peeked) (es ++ [.on d e, .teardown]) = some σ' ∧
        σ'.torn = true ∧ ¬ Finished (σ'.pipe d.other)) := by
  have hinv := inv_run hrun
  refine ⟨?_, ?_⟩
  · intro hlast
    have hboth := bothFinished_run hrun hlast
    have hfin : σ.torn = true → ∀ d, Finished (σ.pipe d) := by
      intro htorn
      obtain ⟨d, hd⟩ := hinv.torn htorn
      exact hboth d hd
    refine ⟨hfin, ?_⟩
    intro hnofail htorn d
    rcases hfin htorn d with hfail | ⟨hclosed, hin, hbuf⟩
    · exact absurd (hinv.failed d hfail) (hnofail d)
    · have hcons := hinv.conserved d
      unfold Conserved at hcons
      rw [hin, hbuf, List.append_nil, List.append_nil] at hcons
      exact ⟨hclosed, hcons⟩
  · intro d e he hsome hopen
    obtain ⟨σ₁, hstep⟩ := Option.isSome_iff_exists.mp hsome
    obtain ⟨p', hp, rfl⟩ := Option.map_eq_some_iff.mp hstep
    -- one copy is done, and that is all the teardown waits for
    obtain ⟨htorn, hdone⟩ := ends_step hp he
    have hteardown : step (σ.setPipe d p') .teardown =
        some { σ.setPipe d p' with torn := true } := by
      refine if_pos ⟨(torn_setPipe σ d p').trans htorn, ?_⟩
      cases d with
      | up => exact Or.inl hdone
      | down => exact Or.inr hdone
    refine ⟨{ σ.setPipe d p' with torn := true }, ?_, rfl, ?_⟩
    · exact run_append.mpr ⟨σ, hrun,
        run_cons.mpr ⟨_, hstep, run_cons.mpr ⟨_, hteardown, rfl⟩⟩⟩
    · intro hfin
      refine hopen ?_
      have hsame : ({ σ.setPipe d p' with torn := true } : Relay).pipe d.other =
          σ.pipe d.other := by
        cases d <;> rfl
      rw [← hsame]
      exact hfin

/-- The upstream answers and closes, and the client closes after the answer. -/
def replyThenClose : List Event :=
  [.on .down (.send [2, 3]), .on .down .halfClose, .on .down (.read 2), .on .down .write,
    .on .up .halfClose, .on .up .eof, .teardown]

/-- Only one copier ends in it, the one from the client, and it ends last. -/
theorem replyThenClose_endsLast : EndsLast [0] replyThenClose := by
  intro pre d e post τ hes he hrun
  have htake : pre = replyThenClose.take pre.length := by
    rw [hes, List.take_left]
  have hat : replyThenClose[pre.length]? = some (.on d e) := by
    rw [hes]
    simp
  have hpre : pre.length = 5 ∧ d = .up := by
    generalize pre.length = k at hat
    rcases he with rfl | rfl
    · rcases k with _ | _ | _ | _ | _ | _ | _ | k <;> simp [replyThenClose] at hat
      exact ⟨rfl, hat.symm⟩
    · rcases k with _ | _ | _ | _ | _ | _ | _ | k <;> simp [replyThenClose] at hat
  obtain ⟨hlen, rfl⟩ := hpre
  rw [htake, hlen] at hrun
  obtain rfl := Option.some.inj ((show run step (start [0]) (replyThenClose.take 5) = some _ from
    rfl).symm.trans hrun)
  exact Or.inr ⟨rfl, rfl, rfl⟩

theorem teardown_replyThenClose :
    ∃ σ, run step (start [0]) replyThenClose = some σ ∧ σ.torn = true ∧
      σ.down.closed = true ∧ σ.down.delivered = [2, 3] := by
  obtain ⟨hlast, _⟩ := teardown_only_when_finished [0] replyThenClose _ rfl
  obtain ⟨_, hall⟩ := hlast replyThenClose_endsLast
  have hnofail : ∀ d, .on d .fail ∉ replyThenClose := by
    intro d
    cases d <;> decide
  obtain ⟨hclosed, hdelivered⟩ := hall hnofail rfl .down
  exact ⟨_, rfl, rfl, hclosed, hdelivered⟩

/-- A client that half-closes after its request loses the answer. -/
theorem answer_lost_after_half_close :
    ∃ σ, run step (start [0])
        [.on .up .halfClose, .on .up .eof, .on .down (.send [2, 3]), .teardown,
          .on .down .halfClose] = some σ ∧
      σ.torn = true ∧ σ.up.failed = false ∧ σ.down.failed = false ∧
      ¬ Finished σ.down ∧ σ.down.sent = [2, 3] ∧ σ.down.delivered = [] := by
  refine ⟨_, rfl, rfl, rfl, rfl, ?_, rfl, rfl⟩
  rintro (hfail | ⟨_, hin, _⟩)
  · cases hfail
  · cases hin

end AiInterceptor.Theorems.Teardown
