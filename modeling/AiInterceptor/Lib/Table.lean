import Mathlib

/-!
# Tables as replays of their updates

A table that starts empty holds at each key what the last update of that key said:
a value, or that there is none. `tableOf` computes the table, `LastOn` names the
update, and `tableOf_eq_some` says that they agree.
-/

namespace AiInterceptor.Lib

variable {α κ ν : Type} (key : α → κ) (val : α → Option ν)

/-- The table after some updates, the latest at the end of the list. -/
def tableOf [DecidableEq κ] (ops : List α) : κ → Option ν :=
  ops.foldl (fun table op => Function.update table (key op) (val op)) fun _ => none

/-- `op` is the latest of the updates of `k`. -/
def LastOn (ops : List α) (k : κ) (op : α) : Prop :=
  ∃ before after, ops = before ++ op :: after ∧ key op = k ∧ ∀ op' ∈ after, key op' ≠ k

theorem tableOf_snoc [DecidableEq κ] (ops : List α) (op : α) :
    tableOf key val (ops ++ [op]) = Function.update (tableOf key val ops) (key op) (val op) := by
  rw [tableOf, List.foldl_append]
  rfl

variable {key val}

theorem lastOn_snoc {ops : List α} {op op' : α} {k : κ} :
    LastOn key (ops ++ [op']) k op ↔
      (key op' = k ∧ op = op') ∨ (key op' ≠ k ∧ LastOn key ops k op) := by
  constructor
  · rintro ⟨before, after, h, hk, hafter⟩
    rcases List.eq_nil_or_concat after with rfl | ⟨after', x, rfl⟩
    · obtain ⟨_, hop⟩ := List.append_inj' h rfl
      obtain rfl := List.singleton_injective hop
      exact .inl ⟨hk, rfl⟩
    · rw [List.concat_eq_append] at h hafter
      have h' : ops ++ [op'] = (before ++ op :: after') ++ [x] := by
        rw [h, List.append_assoc, List.cons_append]
      obtain ⟨rfl, hx⟩ := List.append_inj' h' rfl
      obtain rfl := List.singleton_injective hx
      refine .inr ⟨hafter op' (by simp), before, after', rfl, hk, ?_⟩
      intro y hy
      exact hafter y (List.mem_append_left _ hy)
  · rintro (⟨hk, rfl⟩ | ⟨hne, before, after, rfl, hk, hafter⟩)
    · exact ⟨ops, [], rfl, hk, by simp⟩
    · refine ⟨before, after ++ [op'], by simp, hk, ?_⟩
      intro y hy
      rcases List.mem_append.mp hy with hy | hy
      · exact hafter y hy
      · rw [List.mem_singleton.mp hy]
        exact hne

theorem LastOn.mem {ops : List α} {k : κ} {op : α} (h : LastOn key ops k op) :
    op ∈ ops ∧ key op = k := by
  obtain ⟨before, after, rfl, hk, _⟩ := h
  exact ⟨by simp, hk⟩

/-- A key that was updated has a latest update. -/
theorem exists_lastOn [DecidableEq κ] {ops : List α} {op : α} (h : op ∈ ops) :
    ∃ op', LastOn key ops (key op) op' := by
  induction ops using List.reverseRecOn with
  | nil => exact absurd h List.not_mem_nil
  | append_singleton ops op' ih =>
      by_cases hk : key op' = key op
      · exact ⟨op', lastOn_snoc.mpr (.inl ⟨hk, rfl⟩)⟩
      · have hold : op ∈ ops := by
          rcases List.mem_append.mp h with h | h
          · exact h
          · rw [List.mem_singleton.mp h] at hk
            exact absurd rfl hk
        obtain ⟨last, hlast⟩ := ih hold
        exact ⟨last, lastOn_snoc.mpr (.inr ⟨hk, hlast⟩)⟩

/-- A key has the value of its latest update. -/
theorem tableOf_eq_some [DecidableEq κ] {ops : List α} {k : κ} {v : ν} :
    tableOf key val ops k = some v ↔ ∃ op, LastOn key ops k op ∧ val op = some v := by
  induction ops using List.reverseRecOn with
  | nil =>
      constructor
      · intro h
        cases h
      · rintro ⟨op, ⟨before, after, h, _⟩, _⟩
        simp at h
  | append_singleton ops op' ih =>
      rw [tableOf_snoc]
      by_cases hk : key op' = k
      · subst hk
        rw [Function.update_self]
        constructor
        · intro hv
          exact ⟨op', lastOn_snoc.mpr (.inl ⟨rfl, rfl⟩), hv⟩
        · rintro ⟨op, hlast, hv⟩
          rcases lastOn_snoc.mp hlast with ⟨_, rfl⟩ | ⟨hne, _⟩
          · exact hv
          · exact absurd rfl hne
      · rw [Function.update_of_ne (Ne.symm hk), ih]
        refine exists_congr fun op => and_congr_left fun _ => ?_
        rw [lastOn_snoc]
        simp [hk]

end AiInterceptor.Lib
