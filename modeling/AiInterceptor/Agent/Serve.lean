import AiInterceptor.Agent.Pipeline
import AiInterceptor.Agent.Process

/-!
# A serving agent and its end (`main`, `ReadDNSEvents`, `ReadRedirectEvents`)

Between `NewManager` and the end of the process five goroutines are at work. `main`
waits for the signal and then closes the links and the objects, without waiting for
anybody. Each reader opens its ring, which is fatal if it fails, and reads until its
ring is closed; a goroutine of its own closes the ring once the context is done. Hooks
run as long as they are attached, also after the process is gone. All of this happens
in any order.

`node` holds the attachments and whether the objects are open, `plane` the current
contents of the maps and rings.
-/

namespace AiInterceptor.Agent.Serve

open Lib Bpf Go

/-- Where `main` stands. -/
inductive Stage
  | waiting
  | closing (links : List Link)
  | closed
  | gone
  deriving DecidableEq, Repr

/-- Where a reader stands; `closed` is the state of its ring. -/
inductive Reader
  | starting
  | reading
  | closed
  | returned
  deriving DecidableEq, Repr

structure State where
  node : Node
  stage : Stage
  cancelled : Bool
  dns : Reader
  redirect : Reader
  plane : Pipeline.State

inductive Which
  | dns | redirect
  deriving DecidableEq, Repr

inductive Event
  /-- The first signal. -/
  | signal
  /-- `ringbuf.NewReader`, and whether it succeeds. -/
  | newReader (r : Which) (ok : Bool)
  /-- `rd.Close()` after `<-ctx.Done()`. -/
  | watch (r : Which)
  /-- `ReadInto` finds its ring closed. -/
  | readerReturn (r : Which)
  | plane (e : Pipeline.Event)
  /-- `main` comes past `<-ctx.Done()`. -/
  | proceed
  /-- The next call of `mgr.Close`; its error is ignored. -/
  | close (failed : Option Errno)
  /-- `main` returns. -/
  | exit
  | kill

def State.reader (σ : State) : Which → Reader
  | .dns => σ.dns
  | .redirect => σ.redirect

def State.setReader (σ : State) (r : Which) (x : Reader) : State :=
  match r with
  | .dns => { σ with dns := x }
  | .redirect => { σ with redirect := x }

/-- The state in which `NewManager` leaves the process. -/
def start (x : Node) (maps : Maps) : State :=
  ⟨x, .waiting, false, .starting, .starting, Pipeline.start maps⟩

/-- The verdict a close call of `main` meets. -/
def verdict : Option Errno → Verdict
  | none => .ok
  | some e => .fail e

section Step

variable (o : ByteOrder) (m : Manager) {ε : Type} (unpack : List UInt8 → Except ε (List RR))

/-- The objects are held open. -/
def isOpen (σ : State) : Bool :=
  match σ.node.objs m.objs with
  | none => false
  | some ob => ob.isOpen

/-- The end of the process. -/
def die (σ : State) : State := { σ with node := Agent.exit m.objs σ.node, stage := .gone }

/-- Who can take a step of the data plane. The calls of the message in hand are made
even if the ring has been closed meanwhile. -/
def admits (σ : State) : Pipeline.Event → Bool
  | .frame _ _ => σ.node.filters.any (·.prog = m.objs)
  | .connect _ => σ.node.cgroupLinks.any (·.prog = m.objs)
  | .evict _ => true
  | .readDns => σ.stage ≠ .gone ∧ σ.dns = .reading
  | .write _ => σ.stage ≠ .gone ∧ (σ.dns = .reading ∨ σ.dns = .closed)
  | .readRedirect => σ.stage ≠ .gone ∧ σ.redirect = .reading

/-- A step of the data plane. A write to closed maps fails and is ignored, and a panic
of the DNS reader ends the process. -/
def planeStep (σ : State) (e : Pipeline.Event) : Option State :=
  match e, isOpen m σ with
  | .write _, false =>
      match σ.plane.calls with
      | [] => none
      | _ :: rest => some { σ with plane := { σ.plane with calls := rest } }
  | e, _ =>
      (Pipeline.step o m.dnsSvc unpack σ.plane e).map fun plane =>
        if plane.panicked ∧ σ.stage ≠ .gone then die m { σ with plane := plane }
        else { σ with plane := plane }

/-- The next call of `mgr.Close`. -/
def closeStep (σ : State) (failed : Option Errno) : Option State :=
  match σ.stage with
  | .closing (l :: rest) =>
      some { σ with node := ((closeLink (fun _ => verdict failed) l).run σ.node).2
                    stage := .closing rest }
  | .closing [] =>
      some { σ with node := ((objsClose (fun _ => verdict failed) m.objs).run σ.node).2
                    stage := .closed }
  | _ => none

def step (σ : State) : Event → Option State
  | .plane e => if admits m σ e then planeStep o m unpack σ e else none
  | .signal => if σ.stage = .gone then none else some { σ with cancelled := true }
  | .newReader r ok =>
      if σ.stage = .gone ∨ σ.reader r ≠ .starting then none
      else if ok then
        -- a closed map cannot be opened
        if isOpen m σ then some (σ.setReader r .reading) else none
      else some (die m σ)
  | .watch r =>
      if σ.stage ≠ .gone ∧ σ.cancelled ∧ σ.reader r = .reading then some (σ.setReader r .closed)
      else none
  | .readerReturn r =>
      if σ.stage ≠ .gone ∧ σ.reader r = .closed ∧ (r = .dns → σ.plane.calls = []) then
        some (σ.setReader r .returned)
      else none
  | .proceed =>
      if σ.stage = .waiting ∧ σ.cancelled then some { σ with stage := .closing m.links } else none
  | .close failed => closeStep m σ failed
  | .exit => if σ.stage = .closed then some (die m σ) else none
  | .kill => if σ.stage = .gone then none else some (die m σ)

end Step

/-! ## What a step can do -/

section Cases

variable {o : ByteOrder} {m : Manager} {ε : Type} {unpack : List UInt8 → Except ε (List RR)}
  {σ σ' : State}

theorem step_plane {e : Pipeline.Event} (h : step o m unpack σ (.plane e) = some σ') :
    admits m σ e = true ∧
      ((∃ now d rest, e = .write now ∧ isOpen m σ = false ∧ σ.plane.calls = d :: rest ∧
          σ' = { σ with plane := { σ.plane with calls := rest } }) ∨
        ((∀ now, e = .write now → isOpen m σ = true) ∧
          ∃ plane, Pipeline.step o m.dnsSvc unpack σ.plane e = some plane ∧
            ((plane.panicked = true ∧ σ.stage ≠ .gone ∧ σ' = die m { σ with plane := plane }) ∨
              ((plane.panicked = false ∨ σ.stage = .gone) ∧ σ' = { σ with plane := plane })))) := by
  simp only [step] at h
  split at h
  · rename_i hadmits
    refine ⟨hadmits, ?_⟩
    unfold planeStep at h
    split at h
    · rename_i now hclosed
      split at h
      · cases h
      · rename_i d rest hcalls
        exact .inl ⟨now, d, rest, rfl, hclosed, hcalls, (Option.some.inj h).symm⟩
    · rename_i hopen
      obtain ⟨plane, hplane, rfl⟩ := Option.map_eq_some_iff.mp h
      refine .inr ⟨?_, plane, hplane, ?_⟩
      · intro now hnow
        cases ho : isOpen m σ with
        | true => rfl
        | false => exact absurd ho (hopen now hnow)
      · by_cases hpanic : plane.panicked = true ∧ σ.stage ≠ .gone
        · rw [if_pos hpanic]
          exact .inl ⟨hpanic.1, hpanic.2, rfl⟩
        · rw [if_neg hpanic]
          refine .inr ⟨?_, rfl⟩
          by_cases hgone : σ.stage = .gone
          · exact .inr hgone
          · left
            simpa [hgone] using hpanic
  · cases h

/-- A step leaves the node and `main` where they are, or is the end of the process, or
a step of `main`. -/
theorem step_node {ev : Event} (h : step o m unpack σ ev = some σ') :
    (σ'.node = σ.node ∧ σ'.stage = σ.stage) ∨
    (σ.stage ≠ .gone ∧ σ'.node = Agent.exit m.objs σ.node ∧ σ'.stage = .gone) ∨
    (σ.stage = .waiting ∧ σ'.node = σ.node ∧ σ'.stage = .closing m.links) ∨
    (∃ l rest failed, σ.stage = .closing (l :: rest) ∧ σ'.stage = .closing rest ∧
      σ'.node = ((closeLink (fun _ => verdict failed) l).run σ.node).2) ∨
    (∃ failed, σ.stage = .closing [] ∧ σ'.stage = .closed ∧
      σ'.node = ((objsClose (fun _ => verdict failed) m.objs).run σ.node).2) := by
  have hset : ∀ r x, (σ.setReader r x).node = σ.node ∧ (σ.setReader r x).stage = σ.stage := by
    intro r x
    cases r with
    | dns => exact ⟨rfl, rfl⟩
    | redirect => exact ⟨rfl, rfl⟩
  cases ev with
  | plane e =>
      obtain ⟨_, ⟨_, _, _, _, _, _, rfl⟩ | ⟨_, plane, _, ⟨_, hgone, rfl⟩ | ⟨_, rfl⟩⟩⟩ :=
        step_plane h
      · exact .inl ⟨rfl, rfl⟩
      · exact .inr (.inl ⟨hgone, rfl, rfl⟩)
      · exact .inl ⟨rfl, rfl⟩
  | signal =>
      simp only [step] at h
      split at h
      · cases h
      · obtain rfl := Option.some.inj h
        exact .inl ⟨rfl, rfl⟩
  | newReader r ok =>
      simp only [step] at h
      split at h
      · cases h
      · rename_i hguard
        split at h
        · split at h
          · obtain rfl := Option.some.inj h
            exact .inl (hset r .reading)
          · cases h
        · obtain rfl := Option.some.inj h
          exact .inr (.inl ⟨fun hgone => hguard (.inl hgone), rfl, rfl⟩)
  | watch r =>
      simp only [step] at h
      split at h
      · obtain rfl := Option.some.inj h
        exact .inl (hset r .closed)
      · cases h
  | readerReturn r =>
      simp only [step] at h
      split at h
      · obtain rfl := Option.some.inj h
        exact .inl (hset r .returned)
      · cases h
  | proceed =>
      simp only [step] at h
      split at h
      · rename_i hguard
        obtain rfl := Option.some.inj h
        exact .inr (.inr (.inl ⟨hguard.1, rfl, rfl⟩))
      · cases h
  | close failed =>
      simp only [step, closeStep] at h
      split at h
      · rename_i l rest hstage
        obtain rfl := Option.some.inj h
        exact .inr (.inr (.inr (.inl ⟨l, rest, failed, hstage, rfl, rfl⟩)))
      · rename_i hstage
        obtain rfl := Option.some.inj h
        exact .inr (.inr (.inr (.inr ⟨failed, hstage, rfl, rfl⟩)))
      · cases h
  | exit =>
      simp only [step] at h
      split at h
      · rename_i hstage
        obtain rfl := Option.some.inj h
        exact .inr (.inl ⟨by rw [hstage]; simp, rfl, rfl⟩)
      · cases h
  | kill =>
      simp only [step] at h
      split at h
      · cases h
      · rename_i hstage
        obtain rfl := Option.some.inj h
        exact .inr (.inl ⟨hstage, rfl, rfl⟩)

/-- Only the steps of the data plane move it. -/
theorem step_quiet {ev : Event} (h : step o m unpack σ ev = some σ')
    (hev : ∀ e, ev ≠ .plane e) : σ'.plane = σ.plane := by
  have hset : ∀ r x, (σ.setReader r x).plane = σ.plane := by
    intro r x
    cases r with
    | dns => rfl
    | redirect => rfl
  cases ev with
  | plane e => exact absurd rfl (hev e)
  | signal | proceed | exit | kill =>
      simp only [step] at h
      split at h <;> cases h
      rfl
  | newReader r ok =>
      simp only [step] at h
      split at h
      · cases h
      · split at h
        · split at h
          · obtain rfl := Option.some.inj h
            exact hset r .reading
          · cases h
        · obtain rfl := Option.some.inj h
          rfl
  | watch r =>
      simp only [step] at h
      split at h
      · obtain rfl := Option.some.inj h
        exact hset r .closed
      · cases h
  | readerReturn r =>
      simp only [step] at h
      split at h
      · obtain rfl := Option.some.inj h
        exact hset r .returned
      · cases h
  | close failed =>
      simp only [step, closeStep] at h
      split at h <;> cases h
      · rfl
      · rfl

end Cases

end AiInterceptor.Agent.Serve
