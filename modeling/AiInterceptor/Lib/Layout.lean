import Mathlib

/-!
# Record layouts over raw memory

Two programs that share a record through raw memory agree on nothing but byte
offsets. This file gives that agreement a type:

* `readAt` / `writeAt` — a window of a buffer, and what an overwrite does to
  the windows inside and outside the written range;
* `place` — the C rule for member offsets (each member at the next multiple of
  its alignment), over a list of declared members that may be unnamed padding;
* `Layout` — named windows that lie inside the record and do not overlap, so
  that storing one member never disturbs another (`load_store_of_ne`) and a
  whole sequence of stores reads back member by member
  (`load_storeAll_of_mem`), whatever the record held before.
-/

namespace AiInterceptor.Lib

variable {α : Type}

/-! ## Windows of a buffer -/

/-- The `len` cells of a buffer from `off` on. -/
def readAt (buf : List α) (off len : Nat) : List α := (buf.drop off).take len

/-- Overwrite the cells of a buffer from `off` on. -/
def writeAt (buf : List α) (off : Nat) (cells : List α) : List α :=
  buf.take off ++ cells ++ buf.drop (off + cells.length)

theorem writeAt_length {buf cells : List α} {off : Nat}
    (h : off + cells.length ≤ buf.length) :
    (writeAt buf off cells).length = buf.length := by
  simp only [writeAt, List.length_append, List.length_take, List.length_drop]
  omega

theorem readAt_length {buf : List α} {off len : Nat} (h : off + len ≤ buf.length) :
    (readAt buf off len).length = len := by
  simp only [readAt, List.length_take, List.length_drop]
  omega

/-- A cell of a window is the cell of the buffer at the shifted index. -/
theorem readAt_getElem? (buf : List α) (off len i : Nat) :
    (readAt buf off len)[i]? = if i < len then buf[off + i]? else none := by
  rw [readAt, List.getElem?_take, List.getElem?_drop]

/-- Cell by cell effect of an overwrite. -/
theorem writeAt_getElem? {buf cells : List α} {off : Nat}
    (h : off + cells.length ≤ buf.length) (i : Nat) :
    (writeAt buf off cells)[i]? =
      if off ≤ i ∧ i < off + cells.length then cells[i - off]? else buf[i]? := by
  have hoff : off ≤ buf.length := by omega
  simp only [writeAt, List.append_assoc, List.getElem?_append, List.length_take,
    Nat.min_eq_left hoff, List.getElem?_take, List.getElem?_drop]
  by_cases hlo : i < off
  · rw [if_pos hlo, if_pos hlo, if_neg (by omega)]
  · by_cases hhi : i < off + cells.length
    · rw [if_neg hlo, if_pos (by omega), if_pos (by omega)]
    · rw [if_neg hlo, if_neg (by omega), if_neg (by omega)]
      congr 1
      omega

/-- The written window reads back. -/
theorem readAt_writeAt_self {buf cells : List α} {off : Nat}
    (h : off + cells.length ≤ buf.length) :
    readAt (writeAt buf off cells) off cells.length = cells := by
  apply List.ext_getElem?
  intro i
  rw [readAt_getElem?, writeAt_getElem? h]
  by_cases hi : i < cells.length
  · rw [if_pos hi, if_pos (by omega), Nat.add_sub_cancel_left]
  · rw [if_neg hi, List.getElem?_eq_none (by omega)]

/-- A window that does not meet the written range is unchanged. -/
theorem readAt_writeAt_of_disjoint {buf cells : List α} {off off' len : Nat}
    (h : off + cells.length ≤ buf.length)
    (hdis : off' + len ≤ off ∨ off + cells.length ≤ off') :
    readAt (writeAt buf off cells) off' len = readAt buf off' len := by
  apply List.ext_getElem?
  intro i
  rw [readAt_getElem?, readAt_getElem?, writeAt_getElem? h]
  by_cases hi : i < len
  · rw [if_pos hi, if_pos hi, if_neg (by omega)]
  · rw [if_neg hi, if_neg hi]

/-! ## The C placement rule -/

/-- A declared member: its name (`none` for unnamed padding), its size and its
alignment. -/
structure Member (F : Type) where
  name : Option F
  size : Nat
  align : Nat

/-- The next multiple of `align` at or after `n`. -/
def alignUp (n align : Nat) : Nat := (n + align - 1) / align * align

/-- Place members one after another, each at its alignment. -/
def place {F : Type} : Nat → List (Member F) → List (Option F × Nat × Nat)
  | _, [] => []
  | pos, m :: rest =>
      (m.name, alignUp pos m.align, m.size) ::
        place (alignUp pos m.align + m.size) rest

/-- Offset and size of a named member (`(0, 0)` when there is none). -/
def window {F : Type} [DecidableEq F] (members : List (Member F)) (f : F) : Nat × Nat :=
  (((place 0 members).find? fun w => w.1 = some f).map Prod.snd).getD (0, 0)

/-- Size of the record: the end of the last member, rounded up to the largest
alignment. -/
def recordSize {F : Type} (members : List (Member F)) : Nat :=
  alignUp (((place 0 members).map fun p => p.2.1 + p.2.2).foldr max 0)
    ((members.map (·.align)).foldr max 1)

theorem le_alignUp {n align : Nat} (h : 0 < align) : n ≤ alignUp n align := by
  have hmod := Nat.mod_lt (n + align - 1) h
  have hdiv := Nat.div_add_mod (n + align - 1) align
  rw [alignUp, Nat.mul_comm]
  omega

private theorem le_foldr_max {l : List Nat} {init n : Nat} (h : n ∈ l) :
    n ≤ l.foldr max init := by
  induction l with
  | nil => exact absurd h List.not_mem_nil
  | cons a rest ih =>
      rw [List.foldr_cons]
      rcases List.mem_cons.mp h with rfl | h
      · exact Nat.le_max_left _ _
      · exact Nat.le_trans (ih h) (Nat.le_max_right _ _)

private theorem init_le_foldr_max (l : List Nat) (init : Nat) : init ≤ l.foldr max init := by
  induction l with
  | nil => exact Nat.le_refl _
  | cons a rest ih => exact Nat.le_trans ih (Nat.le_max_right _ _)

theorem le_of_mem_place {F : Type} {members : List (Member F)} {pos : Nat}
    (halign : ∀ m ∈ members, 0 < m.align) {w : Option F × Nat × Nat}
    (hw : w ∈ place pos members) : pos ≤ w.2.1 := by
  induction members generalizing pos with
  | nil => exact absurd hw List.not_mem_nil
  | cons m rest ih =>
      have hpos : pos ≤ alignUp pos m.align := le_alignUp (halign m List.mem_cons_self)
      rw [place] at hw
      rcases List.mem_cons.mp hw with rfl | hw
      · exact hpos
      · have := ih (fun x hx => halign x (List.mem_cons_of_mem m hx)) hw
        omega

/-- Members are placed in order, each after the end of those before it. -/
theorem place_pairwise {F : Type} {members : List (Member F)} {pos : Nat}
    (halign : ∀ m ∈ members, 0 < m.align) :
    (place pos members).Pairwise fun w w' => w.2.1 + w.2.2 ≤ w'.2.1 := by
  induction members generalizing pos with
  | nil => exact List.Pairwise.nil
  | cons m rest ih =>
      have hrest : ∀ x ∈ rest, 0 < x.align := fun x hx => halign x (List.mem_cons_of_mem m hx)
      rw [place, List.pairwise_cons]
      exact ⟨fun w hw => le_of_mem_place hrest hw, ih hrest⟩

/-- A named member is one of the placed windows, or the empty window at 0. -/
theorem window_cases {F : Type} [DecidableEq F] (members : List (Member F)) (f : F) :
    window members f = (0, 0) ∨ (some f, window members f) ∈ place 0 members := by
  unfold window
  cases h : (place 0 members).find? fun w => w.1 = some f with
  | none => exact .inl rfl
  | some w =>
      have hname : w.1 = some f := by simpa using List.find?_some h
      exact .inr (hname ▸ List.mem_of_find?_eq_some h)

/-! ## Layouts -/

/-- Named windows of a record that lie inside it and never overlap. -/
structure Layout (F : Type) where
  off : F → Nat
  size : F → Nat
  total : Nat
  fits : ∀ f, off f + size f ≤ total
  disjoint : ∀ f g, f ≠ g → off f + size f ≤ off g ∨ off g + size g ≤ off f

namespace Layout

variable {F : Type} (L : Layout F)

/-- Load a member. -/
def load (buf : List α) (f : F) : List α := readAt buf (L.off f) (L.size f)

/-- Store a member. -/
def store (buf : List α) (f : F) (cells : List α) : List α := writeAt buf (L.off f) cells

/-- Store a sequence of members, first to last. -/
def storeAll (buf : List α) (stores : List (F × List α)) : List α :=
  stores.foldl (fun b s => L.store b s.1 s.2) buf

variable {L} {buf cells : List α} {f g : F}

theorem store_length (hbuf : buf.length = L.total) (hcells : cells.length = L.size f) :
    (L.store buf f cells).length = L.total := by
  have hfit := L.fits f
  rw [store, writeAt_length (by omega), hbuf]

theorem load_store_self (hbuf : buf.length = L.total) (hcells : cells.length = L.size f) :
    L.load (L.store buf f cells) f = cells := by
  have hfit := L.fits f
  rw [load, store, ← hcells]
  exact readAt_writeAt_self (by omega)

theorem load_store_of_ne (hbuf : buf.length = L.total) (hcells : cells.length = L.size f)
    (hne : g ≠ f) : L.load (L.store buf f cells) g = L.load buf g := by
  have hfit := L.fits f
  have hdis := L.disjoint g f hne
  rw [load, store, load]
  exact readAt_writeAt_of_disjoint (by omega) (by omega)

/-- Every store of a sequence has its member's size. -/
def Sized (L : Layout F) (stores : List (F × List α)) : Prop :=
  ∀ s ∈ stores, s.2.length = L.size s.1

theorem storeAll_length {stores : List (F × List α)} (hbuf : buf.length = L.total)
    (hsized : L.Sized stores) : (L.storeAll buf stores).length = L.total := by
  induction stores generalizing buf with
  | nil => exact hbuf
  | cons s rest ih =>
      exact ih (store_length hbuf (hsized s List.mem_cons_self))
        (fun t ht => hsized t (List.mem_cons_of_mem s ht))

/-- A member no store names keeps what the record held before. -/
theorem load_storeAll_of_notMem {stores : List (F × List α)} (hbuf : buf.length = L.total)
    (hsized : L.Sized stores) (hf : f ∉ stores.map Prod.fst) :
    L.load (L.storeAll buf stores) f = L.load buf f := by
  induction stores generalizing buf with
  | nil => rfl
  | cons s rest ih =>
      rw [List.map_cons, List.mem_cons, not_or] at hf
      have hs := hsized s List.mem_cons_self
      rw [storeAll, List.foldl_cons]
      refine (ih (store_length hbuf hs)
        (fun t ht => hsized t (List.mem_cons_of_mem s ht)) hf.2).trans ?_
      exact load_store_of_ne hbuf hs hf.1

/-- A member stored once reads back, whatever the record held before. -/
theorem load_storeAll_of_mem {stores : List (F × List α)} (hbuf : buf.length = L.total)
    (hsized : L.Sized stores) (hnodup : (stores.map Prod.fst).Nodup)
    (hmem : (f, cells) ∈ stores) : L.load (L.storeAll buf stores) f = cells := by
  induction stores generalizing buf with
  | nil => exact absurd hmem List.not_mem_nil
  | cons s rest ih =>
      rw [List.map_cons, List.nodup_cons] at hnodup
      have hs := hsized s List.mem_cons_self
      have hrest : L.Sized rest := fun t ht => hsized t (List.mem_cons_of_mem s ht)
      rw [storeAll, List.foldl_cons]
      rcases List.mem_cons.mp hmem with heq | hmem
      · subst heq
        refine (load_storeAll_of_notMem (store_length hbuf hs) hrest hnodup.1).trans ?_
        exact load_store_self hbuf hs
      · exact ih (store_length hbuf hs) hrest hnodup.2 hmem

/-- The layout the C placement rule gives a member list. -/
def ofMembers [DecidableEq F] (members : List (Member F))
    (halign : ∀ m ∈ members, 0 < m.align) : Layout F where
  off f := (window members f).1
  size f := (window members f).2
  total := recordSize members
  fits f := by
    rcases window_cases members f with h | h
    · rw [h]
      exact Nat.zero_le _
    · have hend : (window members f).1 + (window members f).2 ∈
          (place 0 members).map fun p => p.2.1 + p.2.2 := List.mem_map_of_mem h
      have hpos := init_le_foldr_max (members.map fun m => m.align) 1
      exact Nat.le_trans (le_foldr_max hend) (le_alignUp hpos)
  disjoint f g hne := by
    rcases window_cases members f with h | h
    · rw [h]
      exact .inl (Nat.zero_le _)
    · rcases window_cases members g with h' | h'
      · rw [h']
        exact .inr (Nat.zero_le _)
      · -- two placed windows with different names are different, so one ends
        -- before the other starts
        have hpair : (place 0 members).Pairwise fun w w' =>
            w.2.1 + w.2.2 ≤ w'.2.1 ∨ w'.2.1 + w'.2.2 ≤ w.2.1 :=
          (place_pairwise halign).imp Or.inl
        have hne' : (some f, window members f) ≠ (some g, window members g) := by
          intro heq
          exact hne (Option.some.inj (congrArg Prod.fst heq))
        have : Std.Symm fun w w' : Option F × Nat × Nat =>
            w.2.1 + w.2.2 ≤ w'.2.1 ∨ w'.2.1 + w'.2.2 ≤ w.2.1 := ⟨fun _ _ => Or.symm⟩
        exact hpair.forall h h' hne'

end Layout

/-! ## Records -/

/-- A block of memory of exactly a layout's size. -/
@[ext] structure Record {F : Type} (L : Layout F) where
  bytes : List UInt8
  length_eq : bytes.length = L.total
  deriving DecidableEq

namespace Record

variable {F : Type} {L : Layout F}

def zero (L : Layout F) : Record L := ⟨List.replicate L.total 0, List.length_replicate⟩

def load (r : Record L) (f : F) : List UInt8 := L.load r.bytes f

def storeAll (r : Record L) (stores : List (F × List UInt8)) (h : L.Sized stores) : Record L :=
  ⟨L.storeAll r.bytes stores, Layout.storeAll_length r.length_eq h⟩

@[simp] theorem load_length (r : Record L) (f : F) : (r.load f).length = L.size f :=
  readAt_length (by rw [r.length_eq]; exact L.fits f)

theorem load_storeAll {r : Record L} {stores : List (F × List UInt8)} {h : L.Sized stores}
    {f : F} {cells : List UInt8} (hnodup : (stores.map Prod.fst).Nodup)
    (hmem : (f, cells) ∈ stores) : (r.storeAll stores h).load f = cells :=
  Layout.load_storeAll_of_mem r.length_eq h hnodup hmem

end Record

end AiInterceptor.Lib
