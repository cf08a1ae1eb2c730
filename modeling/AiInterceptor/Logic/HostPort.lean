import AiInterceptor.Go.Bytes

/-!
# Splitting and joining addresses

`SplitHostPort` by the shape of its argument: where the last colon stands, and
whether brackets enclose what is in front of it. For a host without brackets it
undoes `JoinHostPort` (`splitHostPort_joinHostPort`); a host that comes with its
own brackets is bracketed twice, and then no split succeeds.
-/

namespace AiInterceptor.Go

/-! ## Searching for a byte -/

theorem indexByte_eq_none {s : List UInt8} {c : UInt8} : indexByte s c = none ↔ c ∉ s := by
  rw [indexByte, List.findIdx?_eq_none_iff]
  constructor
  · intro h hmem
    simpa using h c hmem
  · intro h x hx
    simp only [beq_eq_false_iff_ne, ne_eq]
    rintro rfl
    exact h hx

theorem indexByte_isSome {s : List UInt8} {c : UInt8} : (indexByte s c).isSome = true ↔ c ∈ s := by
  rw [Option.isSome_iff_ne_none, ne_eq, indexByte_eq_none, not_not]

theorem indexByte_at {a : List UInt8} {c : UInt8} (h : c ∉ a) (b : List UInt8) :
    indexByte (a ++ c :: b) c = some a.length := by
  have hnone : a.findIdx? (· == c) = none := indexByte_eq_none.mpr h
  rw [indexByte, List.findIdx?_append, hnone, Option.none_or, List.findIdx?_cons]
  simp

/-- What is found stands right behind a part without it. -/
theorem indexByte_split {s : List UInt8} {c : UInt8} {i : Nat} (h : indexByte s c = some i) :
    ∃ a b, s = a ++ c :: b ∧ c ∉ a ∧ a.length = i := by
  obtain ⟨a, b, rfl, ha⟩ := List.eq_append_cons_of_mem (indexByte_isSome.mp (by rw [h]; rfl))
  rw [indexByte_at ha] at h
  exact ⟨a, b, rfl, ha, Option.some.inj h⟩

theorem indexByte_take (s : List UInt8) (c : UInt8) (k : Nat) :
    indexByte (s.take k) c = (indexByte s c).bind (Option.guard fun j => j < k) :=
  List.findIdx?_take

theorem indexByte_lt {s : List UInt8} {c : UInt8} {i : Nat} (h : indexByte s c = some i) :
    i < s.length := by
  obtain ⟨hi, _⟩ := List.findIdx?_eq_some_iff_getElem.mp h
  exact hi

theorem mem_take_iff {s : List UInt8} {c : UInt8} {k : Nat} :
    c ∈ s.take k ↔ ∃ i, indexByte s c = some i ∧ i < k := by
  rw [← indexByte_isSome, indexByte_take]
  cases indexByte s c with
  | none => simp
  | some i => simp [Option.guard]

theorem notMem_take_of_le {s : List UInt8} {c : UInt8} {j k : Nat} (h : c ∉ s.take k)
    (hj : j ≤ k) : c ∉ s.take j := by
  intro hmem
  obtain ⟨i, hi, hlt⟩ := mem_take_iff.mp hmem
  exact h (mem_take_iff.mpr ⟨i, hi, by omega⟩)

theorem notMem_take_first {s : List UInt8} {c : UInt8} {i : Nat} (h : indexByte s c = some i) :
    c ∉ s.take i := by
  intro hmem
  obtain ⟨j, hj, hlt⟩ := mem_take_iff.mp hmem
  obtain rfl := Option.some.inj (h.symm.trans hj)
  exact Nat.lt_irrefl _ hlt

theorem lastIndexByte_eq_none {s : List UInt8} {c : UInt8} :
    lastIndexByte s c = none ↔ c ∉ s := by
  rw [lastIndexByte, Option.map_eq_none_iff, indexByte_eq_none, List.mem_reverse]

theorem lastIndexByte_at (a : List UInt8) {c : UInt8} {b : List UInt8} (h : c ∉ b) :
    lastIndexByte (a ++ c :: b) c = some a.length := by
  have hrev : (a ++ c :: b).reverse = b.reverse ++ c :: a.reverse := by simp
  rw [lastIndexByte, hrev, indexByte_at (by rwa [List.mem_reverse]), Option.map_some,
    List.length_append, List.length_cons, List.length_reverse]
  congr 1
  omega

/-- A byte that occurs has a last occurrence. -/
theorem exists_last {s : List UInt8} {c : UInt8} (h : c ∈ s) : ∃ a b, s = a ++ c :: b ∧ c ∉ b := by
  obtain ⟨b, a, hrev, hb⟩ := List.eq_append_cons_of_mem (List.mem_reverse.mpr h)
  refine ⟨a.reverse, b.reverse, ?_, by rwa [List.mem_reverse]⟩
  rw [← List.reverse_reverse s, hrev]
  simp

/-! ## `SplitHostPort` -/

/-- No square bracket. -/
structure Unbracketed (s : GoString) : Prop where
  noOpen : openBracket ∉ s
  noClose : closeBracket ∉ s

section Split

variable {host port : GoString}

theorem splitHostPort_of_noColon (h : colon ∉ host) :
    splitHostPort host = .error .missingPort := by
  rw [splitHostPort, lastIndexByte_eq_none.mpr h]

/-- One colon, with no bracket on either side of it. -/
theorem splitHostPort_plain (hhost : Unbracketed host) (hcolon : colon ∉ host)
    (hport : Unbracketed port) (hlast : colon ∉ port) :
    splitHostPort (host ++ colon :: port) = .ok (host, port) := by
  have hopen : openBracket ∉ host ++ colon :: port := by
    simp [hhost.noOpen, hport.noOpen, show openBracket ≠ colon by decide]
  have hclose : closeBracket ∉ host ++ colon :: port := by
    simp [hhost.noClose, hport.noClose, show closeBracket ≠ colon by decide]
  have hhead : ¬ (host ++ colon :: port).head? = some openBracket := by
    intro h
    exact hopen (List.mem_of_mem_head? h)
  rw [splitHostPort, lastIndexByte_at host hlast]
  simp only [if_neg hhead, List.take_left, indexByte_isSome, hcolon, if_false,
    splitHostPort.checkBrackets, List.drop_zero, hopen, hclose]
  simp

/-- A bracketed host and a port. -/
theorem splitHostPort_bracketed (hhost : Unbracketed host) (hport : Unbracketed port)
    (hlast : colon ∉ port) :
    splitHostPort (openBracket :: (host ++ closeBracket :: colon :: port)) = .ok (host, port) := by
  have hsplit : openBracket :: (host ++ closeBracket :: colon :: port) =
      openBracket :: (host ++ [closeBracket]) ++ colon :: port := by simp
  have hcolon : lastIndexByte (openBracket :: (host ++ closeBracket :: colon :: port)) colon =
      some (host.length + 2) := by
    rw [hsplit, lastIndexByte_at _ hlast]
    simp
  have hclose : indexByte (openBracket :: (host ++ closeBracket :: colon :: port)) closeBracket =
      some (host.length + 1) := by
    have hfront : closeBracket ∉ openBracket :: host := by
      simp [hhost.noClose, show closeBracket ≠ openBracket by decide]
    exact indexByte_at hfront (colon :: port)
  have hopen' : openBracket ∉ host ++ closeBracket :: colon :: port := by
    simp [hhost.noOpen, hport.noOpen, show openBracket ≠ closeBracket by decide,
      show openBracket ≠ colon by decide]
  have hclose' : closeBracket ∉ colon :: port := by
    simp [hport.noClose, show closeBracket ≠ colon by decide]
  rw [splitHostPort, hcolon]
  simp only [List.head?_cons, if_true, hclose]
  rw [if_neg (by simp)]
  simp only [splitHostPort.checkBrackets, indexByte_isSome]
  simp [hopen', hclose']

/-- A bracketed host without a port. -/
theorem splitHostPort_bare (hclose : closeBracket ∉ host) :
    splitHostPort (openBracket :: (host ++ [closeBracket])) = .error .missingPort := by
  have hat : indexByte (openBracket :: (host ++ [closeBracket])) closeBracket =
      some (host.length + 1) := by
    have hfront : closeBracket ∉ openBracket :: host := by
      simp [hclose, show closeBracket ≠ openBracket by decide]
    exact indexByte_at hfront []
  rw [splitHostPort]
  cases lastIndexByte (openBracket :: (host ++ [closeBracket])) colon with
  | none => rfl
  | some i =>
      simp only [List.head?_cons, if_true, hat]
      rw [if_pos (by simp)]

/-- Two pairs of brackets: the first closing one is not right before a colon. -/
theorem splitHostPort_doubled (hclose : closeBracket ∉ host) (hlast : colon ∉ port) :
    splitHostPort (openBracket :: (openBracket :: (host ++ [closeBracket]) ++
      closeBracket :: colon :: port)) = .error .missingPort := by
  have hat : indexByte (openBracket :: (openBracket :: (host ++ [closeBracket]) ++
      closeBracket :: colon :: port)) closeBracket = some (host.length + 2) := by
    have hfront : closeBracket ∉ openBracket :: openBracket :: host := by
      simp [hclose, show closeBracket ≠ openBracket by decide]
    have h := indexByte_at hfront (closeBracket :: colon :: port)
    simpa using h
  have hcolon : lastIndexByte (openBracket :: (openBracket :: (host ++ [closeBracket]) ++
      closeBracket :: colon :: port)) colon = some (host.length + 4) := by
    have h := lastIndexByte_at (openBracket :: (openBracket :: (host ++ [closeBracket]) ++
      [closeBracket])) hlast
    simpa using h
  rw [splitHostPort, hcolon]
  simp only [List.head?_cons, if_true, hat]
  rw [if_neg (by simp), if_neg (by omega)]
  simp [show closeBracket ≠ colon by decide]

/-- A separator that stands in both texts for the last time. -/
theorem append_last_inj {c : UInt8} {a b x y : List UInt8} (hx : c ∉ x) (hy : c ∉ y)
    (h : a ++ c :: x = b ++ c :: y) : a = b ∧ x = y := by
  rcases List.append_eq_append_iff.mp h with ⟨mid, rfl, hmid⟩ | ⟨mid, rfl, hmid⟩
  · cases mid with
    | nil => simpa using hmid
    | cons d mid =>
        obtain ⟨_, rfl⟩ := List.cons.inj hmid
        simp at hx
  · cases mid with
    | nil => simpa using hmid.symm
    | cons d mid =>
        obtain ⟨_, rfl⟩ := List.cons.inj hmid
        simp at hy

theorem checkBrackets_ok {s p : GoString} {j k i : Nat}
    (h : splitHostPort.checkBrackets s p j k i = .ok (host, port)) :
    openBracket ∉ s.drop j ∧ closeBracket ∉ s.drop k ∧ host = p ∧ port = s.drop (i + 1) := by
  simp only [splitHostPort.checkBrackets, indexByte_isSome] at h
  split at h
  · cases h
  · rename_i hopen
    split at h
    · cases h
    · rename_i hclose
      obtain ⟨rfl, rfl⟩ := Prod.mk.inj (Except.ok.inj h)
      exact ⟨hopen, hclose, rfl, rfl⟩

/-- What is split is a host and a port without brackets, the host in brackets or
without a colon. -/
theorem splitHostPort_ok {s : GoString} (h : splitHostPort s = .ok (host, port)) :
    Unbracketed host ∧ colon ∉ port ∧
      (s = host ++ colon :: port ∨
        s = openBracket :: (host ++ closeBracket :: colon :: port)) := by
  by_cases hcolon : colon ∈ s
  · obtain ⟨front, rest, rfl, hlast⟩ := exists_last hcolon
    have hport : (front ++ colon :: rest).drop (front.length + 1) = rest := by
      rw [List.drop_length_add_append]
      rfl
    rw [splitHostPort, lastIndexByte_at front hlast] at h
    dsimp only at h
    split at h
    · rename_i hhead
      cases hclose : indexByte (front ++ colon :: rest) closeBracket with
      | none =>
          rw [hclose] at h
          cases h
      | some close =>
          rw [hclose] at h
          dsimp only at h
          split at h
          · cases h
          · split at h
            · rename_i _ hnext
              obtain ⟨hopen, _, rfl, rfl⟩ := checkBrackets_ok h
              obtain ⟨a, b, hsplit, ha, rfl⟩ := indexByte_split hclose
              -- the bracket that closes the host is right in front of the last colon
              obtain ⟨hfront, _⟩ : front = a ++ [closeBracket] ∧ colon :: rest = b := by
                apply List.append_inj
                · rw [hsplit, List.append_assoc, List.singleton_append]
                · rw [List.length_append, List.length_singleton, hnext]
              cases a with
              | nil =>
                  rw [hsplit] at hhead
                  cases hhead
              | cons d name =>
                  rw [hsplit] at hhead hopen ⊢
                  obtain rfl : d = openBracket := Option.some.inj hhead
                  have hname : ((openBracket :: name ++ closeBracket :: b).take
                      (openBracket :: name).length).drop 1 = name := by
                    rw [List.take_left]
                    rfl
                  rw [hname, ← hsplit, hport, hfront]
                  refine ⟨⟨?_, ?_⟩, hlast, .inr (by simp)⟩
                  · exact fun hmem => hopen (List.mem_append_left _ hmem)
                  · exact fun hmem => ha (List.mem_cons_of_mem _ hmem)
            · split at h <;> cases h
    · split at h
      · cases h
      · obtain ⟨hopen, hclose, rfl, rfl⟩ := checkBrackets_ok h
        rw [List.drop_zero] at hopen hclose
        rw [List.take_left, hport]
        refine ⟨⟨?_, ?_⟩, hlast, .inl rfl⟩
        · exact fun hmem => hopen (List.mem_append_left _ hmem)
        · exact fun hmem => hclose (List.mem_append_left _ hmem)
  · rw [splitHostPort_of_noColon hcolon] at h
    cases h

end Split

/-! ## `JoinHostPort` -/

section Join

variable {host : GoString} (port : GoString)

theorem joinHostPort_plain (h : colon ∉ host) : joinHostPort host port = host ++ colon :: port := by
  have hnone : ¬ (indexByte host colon).isSome = true := by rwa [indexByte_isSome]
  rw [joinHostPort, if_neg hnone, List.append_assoc]
  rfl

theorem joinHostPort_colons (h : colon ∈ host) :
    joinHostPort host port = openBracket :: (host ++ closeBracket :: colon :: port) := by
  have hsome : (indexByte host colon).isSome = true := by rwa [indexByte_isSome]
  rw [joinHostPort, if_pos hsome, List.append_assoc, List.append_assoc]
  rfl

/-- For a host without brackets the two are inverse. -/
theorem splitHostPort_joinHostPort (hhost : Unbracketed host) {port : GoString}
    (hport : Unbracketed port) (hlast : colon ∉ port) :
    splitHostPort (joinHostPort host port) = .ok (host, port) := by
  by_cases hcolon : colon ∈ host
  · rw [joinHostPort_colons port hcolon]
    exact splitHostPort_bracketed hhost hport hlast
  · rw [joinHostPort_plain port hcolon]
    exact splitHostPort_plain hhost hcolon hport hlast

/-- A joined address splits into the port it was joined with, if it splits at all,
and into the name or what the name has in its own brackets. -/
theorem joinHostPort_split {name host p port : GoString} (hp : colon ∉ p)
    (h : splitHostPort (joinHostPort name p) = .ok (host, port)) :
    port = p ∧ (host = name ∨ openBracket :: (host ++ [closeBracket]) = name) := by
  obtain ⟨hhost, hport, hs⟩ := splitHostPort_ok h
  by_cases hcolon : colon ∈ name
  · have hjoin : joinHostPort name p = openBracket :: (name ++ [closeBracket]) ++ colon :: p := by
      rw [joinHostPort_colons p hcolon]
      simp
    rw [hjoin] at hs
    rcases hs with hs | hs
    · -- a host of its own cannot start with a bracket
      obtain ⟨rfl, _⟩ := append_last_inj hp hport hs
      exact absurd List.mem_cons_self hhost.noOpen
    · have hs : openBracket :: (name ++ [closeBracket]) ++ colon :: p =
          openBracket :: (host ++ [closeBracket]) ++ colon :: port := by simpa using hs
      obtain ⟨heq, rfl⟩ := append_last_inj hp hport hs
      have hname : name = host := by simpa using heq
      exact ⟨rfl, .inl hname.symm⟩
  · rw [joinHostPort_plain p hcolon] at hs
    rcases hs with hs | hs
    · obtain ⟨rfl, rfl⟩ := append_last_inj hp hport hs
      exact ⟨rfl, .inl rfl⟩
    · have hs : name ++ colon :: p = openBracket :: (host ++ [closeBracket]) ++ colon :: port := by
        simpa using hs
      obtain ⟨rfl, rfl⟩ := append_last_inj hp hport hs
      exact ⟨rfl, .inr rfl⟩

end Join

end AiInterceptor.Go
