import Mathlib

/-!
# Byte streams in pieces

A connection is a script of the results its reads will give: each chunk carries
some data and possibly an error, in any mix. A read takes at most as much as its
buffer holds and leaves the rest of the chunk for the next one. Once the script
is used up, every read returns end of file.

The one law everything rests on is conservation: what a program has read,
followed by what is left, is the stream (`read_bytes`, `readFull_bytes`,
`copy_bytes`).
-/

namespace AiInterceptor.Lib

inductive IoError
  | eof
  | unexpectedEOF
  | other (code : Nat)
  deriving DecidableEq, Repr

structure Chunk (α : Type) where
  data : List α
  err : Option IoError
  deriving DecidableEq, Repr

abbrev Source (α : Type) := List (Chunk α)

namespace Source

variable {α : Type}

/-- The stream a source carries. -/
def bytes (src : Source α) : List α := src.flatMap Chunk.data

/-- What the reads of a source return, as a measure: every read with room for at
least one byte makes it smaller. -/
def weight (src : Source α) : Nat := (src.map fun c => c.data.length + 1).sum

/-- No read of the source fails. -/
def Clean (src : Source α) : Prop := ∀ c ∈ src, c.err = none

/-- One read with room for `room` bytes. -/
def read (room : Nat) : Source α → (List α × Option IoError) × Source α
  | [] => (([], some .eof), [])
  | c :: rest =>
      if c.data.length ≤ room then ((c.data, c.err), rest)
      else ((c.data.take room, none), { c with data := c.data.drop room } :: rest)

@[simp] theorem bytes_nil : bytes ([] : Source α) = [] := rfl

@[simp] theorem bytes_cons (c : Chunk α) (rest : Source α) :
    bytes (c :: rest) = c.data ++ bytes rest := List.flatMap_cons

theorem read_fits {room : Nat} {c : Chunk α} (rest : Source α) (h : c.data.length ≤ room) :
    read room (c :: rest) = ((c.data, c.err), rest) := if_pos h

theorem read_splits {room : Nat} {c : Chunk α} (rest : Source α) (h : ¬ c.data.length ≤ room) :
    read room (c :: rest) =
      ((c.data.take room, none), { c with data := c.data.drop room } :: rest) := if_neg h

theorem read_bytes (room : Nat) (src : Source α) :
    (read room src).1.1 ++ (read room src).2.bytes = src.bytes := by
  cases src with
  | nil => rfl
  | cons c rest =>
      by_cases h : c.data.length ≤ room
      · rw [read_fits rest h, bytes_cons]
      · rw [read_splits rest h, bytes_cons, bytes_cons, ← List.append_assoc,
          List.take_append_drop]

theorem read_length (room : Nat) (src : Source α) : (read room src).1.1.length ≤ room := by
  cases src with
  | nil => exact Nat.zero_le room
  | cons c rest =>
      by_cases h : c.data.length ≤ room
      · rw [read_fits rest h]
        exact h
      · rw [read_splits rest h]
        exact List.length_take_le room c.data

/-- A read that returns no error has made progress. -/
theorem read_weight {room : Nat} (hroom : 0 < room) {src : Source α}
    (h : (read room src).1.2 = none) : (read room src).2.weight < src.weight := by
  cases src with
  | nil => cases h
  | cons c rest =>
      by_cases hlen : c.data.length ≤ room
      · rw [read_fits rest hlen]
        simp [weight]
      · rw [read_splits rest hlen]
        simp only [weight, List.map_cons, List.sum_cons, List.length_drop]
        omega

theorem read_clean {room : Nat} {src : Source α} (h : src.Clean) : (read room src).2.Clean := by
  cases src with
  | nil => exact h
  | cons c rest =>
      have hrest : Clean rest := fun d hd => h d (List.mem_cons_of_mem c hd)
      by_cases hlen : c.data.length ≤ room
      · rw [read_fits rest hlen]
        exact hrest
      · rw [read_splits rest hlen]
        intro d hd
        rcases List.mem_cons.mp hd with rfl | hd
        · exact h c List.mem_cons_self
        · exact hrest d hd

/-- A source without errors has nothing more to say only when it is used up. -/
theorem read_err_of_clean {room : Nat} {src : Source α} (h : src.Clean) (hsrc : src.bytes ≠ []) :
    (read room src).1.2 = none := by
  cases src with
  | nil => exact absurd rfl hsrc
  | cons c rest =>
      by_cases hlen : c.data.length ≤ room
      · rw [read_fits rest hlen]
        exact h c List.mem_cons_self
      · rw [read_splits rest hlen]

/-! ## `io.ReadFull` -/

/-- The loop of `io.ReadAtLeast` with the buffer as the minimum: `need` bytes are
missing after `acc`. An error that comes with the last missing byte is dropped. -/
def readFull (need : Nat) (acc : List α) (src : Source α) :
    (List α × Option IoError) × Source α :=
  if _hneed : need = 0 then ((acc, none), src)
  else
    match _hread : read need src with
    | ((data, err), src') =>
        if data.length = need then ((acc ++ data, none), src')
        else
          match err with
          | none => readFull (need - data.length) (acc ++ data) src'
          | some e =>
              ((acc ++ data, some (if e = .eof ∧ acc ++ data ≠ [] then .unexpectedEOF else e)),
                src')
termination_by src.weight
decreasing_by
  have hprogress := @read_weight α need (by omega) src (by rw [_hread])
  rw [_hread] at hprogress
  exact hprogress

section ReadFull

variable {need : Nat} {acc data : List α} {src src' : Source α}

theorem readFull_zero (acc : List α) (src : Source α) :
    readFull 0 acc src = ((acc, none), src) := by
  rw [readFull, dif_pos rfl]

/-- One turn of the loop. -/
theorem readFull_step {err : Option IoError} (hneed : need ≠ 0)
    (hread : read need src = ((data, err), src')) :
    readFull need acc src =
      if data.length = need then ((acc ++ data, none), src')
      else
        match err with
        | none => readFull (need - data.length) (acc ++ data) src'
        | some e =>
            ((acc ++ data, some (if e = .eof ∧ acc ++ data ≠ [] then .unexpectedEOF else e)),
              src') := by
  rw [readFull, dif_neg hneed]
  split
  rename_i data' err' src'' heq
  obtain ⟨⟨rfl, rfl⟩, rfl⟩ : (data' = data ∧ err' = err) ∧ src'' = src' := by
    simpa using heq.symm.trans hread
  cases err' <;> rfl

/-- Whatever comes of it, nothing is lost. -/
theorem readFull_bytes (need : Nat) (acc : List α) (src : Source α) :
    (readFull need acc src).1.1 ++ (readFull need acc src).2.bytes = acc ++ src.bytes := by
  induction need, acc, src using readFull.induct with
  | case1 acc src => rw [readFull_zero]
  | case2 acc src data err src' hneed hread =>
      have hbytes := read_bytes data.length src
      rw [hread] at hbytes
      rw [readFull_step hneed hread, if_pos rfl, ← hbytes]
      exact List.append_assoc acc data src'.bytes
  | case3 need acc src hneed data src' hlen hread _ ih =>
      have hbytes := read_bytes need src
      rw [hread] at hbytes
      rw [readFull_step hneed hread, if_neg hlen, ih, ← hbytes]
      exact List.append_assoc acc data src'.bytes
  | case4 need acc src hneed data src' hlen e hread _ =>
      have hbytes := read_bytes need src
      rw [hread] at hbytes
      rw [readFull_step hneed hread, if_neg hlen, ← hbytes]
      exact List.append_assoc acc data src'.bytes

/-- No error means a full buffer. -/
theorem readFull_length (need : Nat) (acc : List α) (src : Source α)
    (h : (readFull need acc src).1.2 = none) :
    (readFull need acc src).1.1.length = acc.length + need := by
  induction need, acc, src using readFull.induct with
  | case1 acc src => rw [readFull_zero, Nat.add_zero]
  | case2 acc src data err src' hneed hread =>
      rw [readFull_step hneed hread, if_pos rfl]
      exact List.length_append
  | case3 need acc src hneed data src' hlen hread _ ih =>
      have hle : data.length ≤ need := by
        have hroom := read_length need src
        rwa [hread] at hroom
      rw [readFull_step hneed hread, if_neg hlen] at h ⊢
      rw [ih h, List.length_append]
      omega
  | case4 need acc src hneed data src' hlen e hread _ =>
      rw [readFull_step hneed hread, if_neg hlen] at h
      cases h

/-- An error means a buffer that is not full. -/
theorem readFull_short {e : IoError} (need : Nat) (acc : List α) (src : Source α)
    (h : (readFull need acc src).1.2 = some e) :
    (readFull need acc src).1.1.length < acc.length + need := by
  induction need, acc, src using readFull.induct with
  | case1 acc src =>
      rw [readFull_zero] at h
      cases h
  | case2 acc src data err src' hneed hread =>
      rw [readFull_step hneed hread, if_pos rfl] at h
      cases h
  | case3 need acc src hneed data src' hlen hread _ ih =>
      have hle : data.length ≤ need := by
        have hroom := read_length need src
        rwa [hread] at hroom
      rw [readFull_step hneed hread, if_neg hlen] at h ⊢
      have hrest := ih h
      rw [List.length_append] at hrest
      exact hrest.trans_le (by omega)
  | case4 need acc src hneed data src' hlen e hread _ =>
      have hle : data.length ≤ need := by
        have hroom := read_length need src
        rwa [hread] at hroom
      rw [readFull_step hneed hread, if_neg hlen]
      show (acc ++ data).length < _
      rw [List.length_append]
      omega

/-- From a source without errors that holds enough, `readFull` takes exactly what
it was asked for. -/
theorem readFull_clean (hclean : src.Clean) (h : need ≤ src.bytes.length) :
    ∃ src', readFull need acc src = ((acc ++ src.bytes.take need, none), src') ∧
      src'.bytes = src.bytes.drop need ∧ src'.Clean := by
  induction need, acc, src using readFull.induct with
  | case1 acc src =>
      refine ⟨src, ?_, rfl, hclean⟩
      rw [readFull_zero, List.take_zero, List.append_nil]
  | case2 acc src data err src' hneed hread =>
      have hbytes := read_bytes data.length src
      have hclean' := @read_clean α data.length src hclean
      rw [hread] at hbytes hclean'
      refine ⟨src', ?_, ?_, hclean'⟩
      · rw [readFull_step hneed hread, if_pos rfl, ← hbytes, List.take_left]
      · rw [← hbytes, List.drop_left]
  | case3 need acc src hneed data src' hlen hread _ ih =>
      have hbytes := read_bytes need src
      -- a short read: what is left of the source still has what is left to read
      have hclean' := @read_clean α need src hclean
      have hle := read_length need src
      rw [hread] at hbytes hclean' hle
      have hrest : need - data.length ≤ src'.bytes.length := by
        have hsum : data.length + src'.bytes.length = src.bytes.length := by
          rw [← hbytes, List.length_append]
        omega
      obtain ⟨src'', hfull, hdrop, hclean''⟩ := ih hclean' hrest
      refine ⟨src'', ?_, ?_, hclean''⟩
      · rw [readFull_step hneed hread, if_neg hlen]
        show readFull (need - data.length) (acc ++ data) src' = _
        rw [hfull, ← hbytes, List.take_append, List.take_of_length_le hle, List.append_assoc]
      · rw [hdrop, ← hbytes, List.drop_append, List.drop_of_length_le hle, List.nil_append]
  | case4 need acc src hneed data src' hlen e hread _ =>
      -- no error as long as there are bytes
      have hne : src.bytes ≠ [] := by
        intro hnil
        rw [hnil] at h
        exact hneed (Nat.le_zero.mp h)
      have herr := @read_err_of_clean α need src hclean hne
      rw [hread] at herr
      cases herr

end ReadFull

/-! ## `io.Copy` -/

/-- Read with a buffer of `room + 1` bytes until the first error; returns what was
copied, the error that ended it, and the source that is left. -/
def copy (room : Nat) (src : Source α) : List α × IoError × Source α :=
  match _hread : read (room + 1) src with
  | ((data, none), src') =>
      let rest := copy room src'
      (data ++ rest.1, rest.2)
  | ((data, some e), src') => (data, e, src')
termination_by src.weight
decreasing_by
  have hprogress := @read_weight α (room + 1) (by omega) src (by rw [_hread])
  rw [_hread] at hprogress
  exact hprogress

/-- One turn of the loop. -/
theorem copy_step {room : Nat} {src src' : Source α} {data : List α} {err : Option IoError}
    (hread : read (room + 1) src = ((data, err), src')) :
    copy room src =
      match err with
      | none => (data ++ (copy room src').1, (copy room src').2)
      | some e => (data, e, src') := by
  rw [copy]
  split <;> rename_i heq
  · obtain ⟨⟨rfl, rfl⟩, rfl⟩ := by simpa using heq.symm.trans hread
    rfl
  · obtain ⟨⟨rfl, rfl⟩, rfl⟩ := by simpa using heq.symm.trans hread
    rfl

theorem copy_bytes (room : Nat) (src : Source α) :
    (copy room src).1 ++ (copy room src).2.2.bytes = src.bytes := by
  induction src using copy.induct room with
  | case1 src data src' hread ih =>
      have hbytes := read_bytes (room + 1) src
      rw [hread] at hbytes
      rw [copy_step hread, ← hbytes, ← ih]
      exact List.append_assoc data _ _
  | case2 src data e src' hread =>
      have hbytes := read_bytes (room + 1) src
      rw [hread] at hbytes
      rw [copy_step hread]
      exact hbytes

/-- A source without errors is copied whole. -/
theorem copy_clean (room : Nat) {src : Source α} (hclean : src.Clean) :
    (copy room src).1 = src.bytes := by
  induction src using copy.induct room with
  | case1 src data src' hread ih =>
      have hbytes := read_bytes (room + 1) src
      have hclean' := @read_clean α (room + 1) src hclean
      rw [hread] at hbytes hclean'
      rw [copy_step hread, ← hbytes, ← ih hclean']
  | case2 src data e src' hread =>
      have hnil : src.bytes = [] := by
        by_contra hne
        have herr := @read_err_of_clean α (room + 1) src hclean hne
        rw [hread] at herr
        cases herr
      have hbytes := read_bytes (room + 1) src
      rw [hread, hnil] at hbytes
      rw [copy_step hread, hnil]
      exact (List.append_eq_nil_iff.mp hbytes).1

/-! ## Streams in pieces of bounded size -/

/-- A source whose reads give one piece each. -/
def ofPieces (pieces : List (List α)) : Source α := pieces.map fun p => ⟨p, none⟩

end Source

/-- `pieces` cut the stream into pieces of at least one and at most `size` elements. -/
structure Cut {α : Type} (size : Nat) (stream : List α) (pieces : List (List α)) : Prop where
  whole : pieces.flatten = stream
  sizes : ∀ p ∈ pieces, 1 ≤ p.length ∧ p.length ≤ size

/-- How much a reader holds in the end that starts with `k` elements and takes
pieces until it holds `goal`. -/
def reach {α : Type} (goal : Nat) : Nat → List (List α) → Nat
  | k, [] => k
  | k, p :: pieces => if goal ≤ k then k else reach goal (k + p.length) pieces

section Reach

variable {α : Type} {size goal k : Nat} {stream : List α} {pieces : List (List α)}

theorem Cut.tail {p : List α} (h : Cut size stream (p :: pieces)) :
    Cut size (stream.drop p.length) pieces := by
  refine ⟨?_, fun q hq => h.sizes q (List.mem_cons_of_mem p hq)⟩
  rw [← h.whole, List.flatten_cons, List.drop_left]

theorem reach_done (h : goal ≤ k) (pieces : List (List α)) : reach goal k pieces = k := by
  cases pieces with
  | nil => rfl
  | cons p pieces => rw [reach, if_pos h]

theorem reach_step (h : ¬ goal ≤ k) (p : List α) (pieces : List (List α)) :
    reach goal k (p :: pieces) = reach goal (k + p.length) pieces := by
  rw [reach, if_neg h]

/-- The reader gets to its goal, and past it by less than a piece. -/
theorem reach_bounds (hcut : Cut size stream pieces) (hk : k ≤ goal)
    (hgoal : goal ≤ k + stream.length) :
    goal ≤ reach goal k pieces ∧ reach goal k pieces ≤ goal + (size - 1) ∧
      reach goal k pieces ≤ k + stream.length := by
  induction pieces generalizing k stream with
  | nil =>
      have hnil : stream = [] := hcut.whole.symm
      subst hnil
      rw [List.length_nil] at hgoal ⊢
      show goal ≤ k ∧ k ≤ goal + (size - 1) ∧ k ≤ k + 0
      omega
  | cons p pieces ih =>
      have hp := hcut.sizes p List.mem_cons_self
      have htotal : p.length + (stream.drop p.length).length = stream.length := by
        rw [← hcut.whole, List.flatten_cons, List.drop_left, List.length_append]
      by_cases hdone : goal ≤ k
      · rw [reach_done hdone]
        omega
      · rw [reach_step hdone]
        -- the piece that passes the goal starts below it, and is the last
        by_cases hnext : k + p.length ≤ goal
        · have := ih hcut.tail hnext (by omega)
          omega
        · rw [reach_done (by omega)]
          omega

/-- Elements one by one, up to the goal. -/
theorem reach_singles (xs : List α) (pieces : List (List α)) (h : k + xs.length ≤ goal) :
    reach goal k (xs.map ([·]) ++ pieces) = reach goal (k + xs.length) pieces := by
  induction xs generalizing k with
  | nil => rfl
  | cons x xs ih =>
      rw [List.length_cons] at h
      rw [List.map_cons, List.cons_append, reach_step (by omega), List.length_singleton,
        ih (by omega), List.length_cons, Nat.add_right_comm, Nat.add_assoc]

theorem flatten_singles (xs : List α) : (xs.map ([·])).flatten = xs := by
  induction xs with
  | nil => rfl
  | cons x xs ih => rw [List.map_cons, List.flatten_cons, ih, List.singleton_append]

/-- Everything between the goal and a piece beyond it can be reached: one element
at a time up to right before the goal, and the rest in one piece. -/
theorem exists_cut (hk : k < goal) {n : Nat} (hgoal : goal ≤ n) (hsize : n ≤ goal + (size - 1))
    (hpos : 1 ≤ size) (hn : n ≤ k + stream.length) :
    ∃ pieces, Cut size stream pieces ∧ reach goal k pieces = n := by
  have hlen : (stream.take (goal - 1 - k)).length = goal - 1 - k := by
    rw [List.length_take]
    omega
  have hpiece : ((stream.drop (goal - 1 - k)).take (n - (goal - 1))).length = n - (goal - 1) := by
    rw [List.length_take, List.length_drop]
    omega
  -- single bytes up to one in front of the goal, a piece from there to `n`, single bytes again
  refine ⟨(stream.take (goal - 1 - k)).map ([·]) ++
    ((stream.drop (goal - 1 - k)).take (n - (goal - 1)) ::
      ((stream.drop (goal - 1 - k)).drop (n - (goal - 1))).map ([·])), ⟨?_, ?_⟩, ?_⟩
  · rw [List.flatten_append, flatten_singles, List.flatten_cons, flatten_singles,
      List.take_append_drop, List.take_append_drop]
  · intro p hp
    rw [List.mem_append, List.mem_map, List.mem_cons, List.mem_map] at hp
    rcases hp with ⟨x, _, rfl⟩ | rfl | ⟨x, _, rfl⟩
    · exact ⟨Nat.le_refl 1, hpos⟩
    · rw [hpiece]
      omega
    · exact ⟨Nat.le_refl 1, hpos⟩
  · rw [reach_singles _ _ (by omega), hlen, reach_step (by omega), hpiece, reach_done (by omega)]
    omega

end Reach

end AiInterceptor.Lib
