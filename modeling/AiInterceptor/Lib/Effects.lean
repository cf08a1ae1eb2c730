import Mathlib

/-!
# Programs that fail, clean up, and can be killed

A program acts on a state and ends in one of three ways: with a value, with an
error it reports, or killed from outside between two of its steps. An error runs
the cleanup its caller attached; a kill runs nothing, and the state stays as the
last completed step left it. This is the difference between a clean and an
abrupt end of a process.
-/

namespace AiInterceptor.Lib

/-- How a program ended. -/
inductive Outcome (ε α : Type)
  | ok (a : α)
  | err (e : ε)
  | killed
  deriving DecidableEq, Repr

/-- A program over states `S` with errors `ε`. -/
structure Prog (S ε α : Type) where
  run : S → Outcome ε α × S

namespace Prog

variable {S ε α β : Type}

instance : Monad (Prog S ε) where
  pure a := ⟨fun s => (.ok a, s)⟩
  bind x f := ⟨fun s =>
    match x.run s with
    | (.ok a, s') => (f a).run s'
    | (.err e, s') => (.err e, s')
    | (.killed, s') => (.killed, s')⟩

def throw (e : ε) : Prog S ε α := ⟨fun s => (.err e, s)⟩

def killed : Prog S ε α := ⟨fun s => (.killed, s)⟩

def modify (f : S → S) : Prog S ε Unit := ⟨fun s => (.ok (), f s)⟩

/-- Run `undo` when the program reports an error, then report that error. -/
def cleanup (x : Prog S ε α) (undo : Prog S ε Unit) : Prog S ε α := ⟨fun s =>
  match x.run s with
  | (.err e, s') =>
      match undo.run s' with
      | (.killed, s'') => (.killed, s'')
      | (_, s'') => (.err e, s'')
  | r => r⟩

@[simp] theorem run_pure (a : α) (s : S) : (pure a : Prog S ε α).run s = (.ok a, s) := rfl

@[simp] theorem run_throw (e : ε) (s : S) : (throw e : Prog S ε α).run s = (.err e, s) := rfl

@[simp] theorem run_killed (s : S) : (killed : Prog S ε α).run s = (.killed, s) := rfl

@[simp] theorem run_modify (f : S → S) (s : S) :
    (modify f : Prog S ε Unit).run s = (.ok (), f s) := rfl

theorem run_bind (x : Prog S ε α) (f : α → Prog S ε β) (s : S) :
    (x >>= f).run s =
      match x.run s with
      | (.ok a, s') => (f a).run s'
      | (.err e, s') => (.err e, s')
      | (.killed, s') => (.killed, s') := rfl

theorem run_cleanup (x : Prog S ε α) (undo : Prog S ε Unit) (s : S) :
    (x.cleanup undo).run s =
      match x.run s with
      | (.err e, s') =>
          match undo.run s' with
          | (.killed, s'') => (.killed, s'')
          | (_, s'') => (.err e, s'')
      | r => r := rfl

theorem run_bind_of_ok {x : Prog S ε α} {f : α → Prog S ε β} {s s' : S} {a : α}
    (h : x.run s = (.ok a, s')) : (x >>= f).run s = (f a).run s' := by
  rw [run_bind, h]

theorem run_cleanup_of_ok {x : Prog S ε α} {undo : Prog S ε Unit} {s s' : S} {a : α}
    (h : x.run s = (.ok a, s')) : (x.cleanup undo).run s = (.ok a, s') := by
  rw [run_cleanup, h]

private theorem ext_run {x y : Prog S ε α} (h : ∀ s, x.run s = y.run s) : x = y := by
  cases x
  cases y
  exact congrArg Prog.mk (funext h)

private theorem map_id (x : Prog S ε α) : id <$> x = x := by
  refine ext_run fun s => ?_
  show (match x.run s with
    | (.ok a, s') => (.ok a, s')
    | (.err e, s') => (.err e, s')
    | (.killed, s') => (.killed, s')) = x.run s
  rcases x.run s with ⟨_ | _ | _, _⟩ <;> rfl

private theorem bind_bind {γ : Type} (x : Prog S ε α) (f : α → Prog S ε β)
    (g : β → Prog S ε γ) : x >>= f >>= g = x >>= fun a => f a >>= g := by
  refine ext_run fun s => ?_
  rw [run_bind, run_bind, run_bind]
  rcases x.run s with ⟨_ | _ | _, _⟩ <;> rfl

instance : LawfulMonad (Prog S ε) :=
  LawfulMonad.mk' _ map_id (fun _ _ => rfl) bind_bind

/-! ## Postconditions -/

/-- `Q` holds of the outcome and the final state. -/
def wp (x : Prog S ε α) (Q : Outcome ε α → S → Prop) (s : S) : Prop :=
  Q (x.run s).1 (x.run s).2

variable {x : Prog S ε α} {Q Q' : Outcome ε α → S → Prop} {s : S}

theorem wp_of_run {out : Outcome ε α} {s' : S} (h : x.run s = (out, s')) (hQ : Q out s') :
    x.wp Q s := by
  rw [wp, h]
  exact hQ

theorem wp_mono (h : x.wp Q s) (himp : ∀ out s', Q out s' → Q' out s') : x.wp Q' s :=
  himp _ _ h

/-- Sequencing: the second program starts where the first returned; any other
end of the first is the end of both. -/
theorem wp_bind {f : α → Prog S ε β} {R : Outcome ε β → S → Prop}
    (h : x.wp (fun out s' => match out with
      | .ok a => (f a).wp R s'
      | .err e => R (.err e) s'
      | .killed => R .killed s') s) : (x >>= f).wp R s := by
  rw [wp] at h
  rw [wp, run_bind]
  cases hx : x.run s with
  | mk out s' =>
      rw [hx] at h
      cases out with
      | ok a => exact h
      | err e => exact h
      | killed => exact h

/-- Cleanup runs on an error only. -/
theorem wp_cleanup {undo : Prog S ε Unit}
    (h : x.wp (fun out s' => match out with
      | .ok a => Q (.ok a) s'
      | .err e => undo.wp (fun out' s'' => match out' with
          | .killed => Q .killed s''
          | _ => Q (.err e) s'') s'
      | .killed => Q .killed s') s) : (x.cleanup undo).wp Q s := by
  rw [wp] at h
  rw [wp, run_cleanup]
  cases hx : x.run s with
  | mk out s' =>
      rw [hx] at h
      cases out with
      | ok a => exact h
      | killed => exact h
      | err e =>
          -- the undo runs; its own error is dropped and the first one returned
          simp only [wp] at h ⊢
          cases hu : undo.run s' with
          | mk out' s'' =>
              rw [hu] at h
              cases out' with
              | ok u => exact h
              | err e' => exact h
              | killed => exact h

/-! ## Programs nobody kills -/

def Alive (x : Prog S ε α) : Prop := ∀ s, (x.run s).1 ≠ .killed

theorem alive_pure (a : α) : (pure a : Prog S ε α).Alive := by
  intro s h
  cases h

theorem alive_throw (e : ε) : (throw e : Prog S ε α).Alive := by
  intro s h
  cases h

theorem Alive.bind {f : α → Prog S ε β} (hx : x.Alive) (hf : ∀ a, (f a).Alive) :
    (x >>= f).Alive := by
  intro s
  rw [run_bind]
  have hs := hx s
  cases hr : x.run s with
  | mk out s' =>
      rw [hr] at hs
      cases out with
      | ok a => exact hf a s'
      | err e => exact fun h => nomatch h
      | killed => exact absurd rfl hs

theorem Alive.cleanup {undo : Prog S ε Unit} (hx : x.Alive) (hu : undo.Alive) :
    (x.cleanup undo).Alive := by
  intro s
  rw [run_cleanup]
  have hs := hx s
  cases hr : x.run s with
  | mk out s' =>
      rw [hr] at hs
      cases out with
      | ok a => exact fun h => nomatch h
      | killed => exact absurd rfl hs
      | err e =>
          have hs' := hu s'
          dsimp only
          cases hr' : undo.run s' with
          | mk out' s'' =>
              rw [hr'] at hs'
              cases out' with
              | ok u => exact fun h => nomatch h
              | err e' => exact fun h => nomatch h
              | killed => exact absurd rfl hs'

end Prog

end AiInterceptor.Lib
