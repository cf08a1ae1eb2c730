import Mathlib

/-!
# Blocks with terminators

A sequence of blocks laid out one after another, each followed by a terminator
that is no element of a block (`none`). A position of the layout is either the
end of a block or inside one, and what follows it is again a layout: that of the
remaining blocks (`terminated_split_none`), or of the rest of the block and the
remaining ones (`terminated_split_some`).
-/

namespace AiInterceptor.Lib

variable {α : Type*}

/-- The blocks one after another, each with its terminator. -/
def terminated (blocks : List (List α)) : List (Option α) :=
  blocks.flatMap fun b => b.map some ++ [none]

@[simp] theorem terminated_nil : terminated ([] : List (List α)) = [] := rfl

theorem terminated_cons (b : List α) (blocks : List (List α)) :
    terminated (b :: blocks) = b.map some ++ none :: terminated blocks := by
  simp [terminated]

theorem terminated_append (a b : List (List α)) :
    terminated (a ++ b) = terminated a ++ terminated b := by
  simp [terminated]

/-- The first block is what stands before the first terminator. -/
theorem takeWhile_terminated_cons (b : List α) (blocks : List (List α)) :
    (terminated (b :: blocks)).takeWhile Option.isSome = b.map some := by
  rw [terminated_cons, List.takeWhile_append_of_pos (by simp)]
  simp

theorem terminated_injective : Function.Injective (terminated (α := α)) := by
  intro a
  induction a with
  | nil =>
      intro b h
      cases b with
      | nil => rfl
      | cons b bs => simp [terminated_cons] at h
  | cons x xs ih =>
      intro b h
      cases b with
      | nil => simp [terminated_cons] at h
      | cons y ys =>
          have hhead : x.map some = y.map some := by
            rw [← takeWhile_terminated_cons x xs, h, takeWhile_terminated_cons]
          have hxy : x = y := (Option.some_injective α).list_map hhead
          subst hxy
          rw [terminated_cons, terminated_cons] at h
          have htail := List.append_cancel_left h
          rw [ih (List.cons.inj htail).2]

/-- A terminator ends a block. -/
theorem terminated_split_none {blocks : List (List α)} {front back : List (Option α)}
    (h : terminated blocks = front ++ none :: back) :
    ∃ a b, blocks = a ++ b ∧ terminated a = front ++ [none] ∧ terminated b = back := by
  induction blocks generalizing front with
  | nil => simp at h
  | cons x xs ih =>
      rw [terminated_cons] at h
      rcases List.append_eq_append_iff.mp h with ⟨mid, rfl, hmid⟩ | ⟨mid, hx, hmid⟩
      · cases mid with
        | nil =>
            refine ⟨[x], xs, rfl, by simp [terminated_cons], ?_⟩
            exact (List.cons.inj hmid).2
        | cons t mid =>
            obtain ⟨rfl, hrest⟩ := List.cons.inj hmid
            obtain ⟨a, b, rfl, ha, hb⟩ := ih hrest
            exact ⟨x :: a, b, rfl, by simp [terminated_cons, ha], hb⟩
      · cases mid with
        | nil =>
            refine ⟨[x], xs, rfl, ?_, (List.cons.inj hmid).2.symm⟩
            simp [terminated_cons, hx]
        | cons t mid =>
            -- the terminator would be an element of the block
            obtain ⟨rfl, _⟩ := List.cons.inj hmid
            have hmem : none ∈ x.map some := by simp [hx]
            simp at hmem

/-- An element stands inside a block. -/
theorem terminated_split_some {blocks : List (List α)} {front back : List (Option α)} {e : α}
    (h : terminated blocks = front ++ some e :: back) :
    ∃ a l r b, blocks = a ++ (l ++ e :: r) :: b ∧ back = terminated (r :: b) := by
  induction blocks generalizing front with
  | nil => simp at h
  | cons x xs ih =>
      rw [terminated_cons] at h
      rcases List.append_eq_append_iff.mp h with ⟨mid, rfl, hmid⟩ | ⟨mid, hx, hmid⟩
      · cases mid with
        | nil => simp at hmid
        | cons t mid =>
            obtain ⟨rfl, hrest⟩ := List.cons.inj hmid
            -- the element lies behind the first block
            obtain ⟨a, l, r, b, rfl, hback⟩ := ih hrest
            exact ⟨x :: a, l, r, b, rfl, hback⟩
      · cases mid with
        | nil => simp at hmid
        | cons t mid =>
            obtain ⟨rfl, hrest⟩ := List.cons.inj hmid
            -- it lies in the first block, which is cut there
            obtain ⟨l, r', rfl, _, hr'⟩ := List.map_eq_append_iff.mp hx
            obtain ⟨e', r, rfl, he, rfl⟩ := List.map_eq_cons_iff.mp hr'
            obtain rfl := Option.some.inj he
            refine ⟨[], l, r, xs, rfl, ?_⟩
            rw [terminated_cons]
            exact hrest

end AiInterceptor.Lib
