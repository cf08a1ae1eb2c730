import AiInterceptor.Go.Bytes

/-!
# Runes and ASCII bytes

An ASCII byte is a rune of its own wherever it stands: it is never the
continuation of a sequence, also not of a broken one, and no byte of a longer
sequence is ASCII. So a rune-wise map can be taken apart before every ASCII byte
(`mapRunes_append_ascii`), and an ASCII byte of the result is the whole image of
a rune.
-/

namespace AiInterceptor.Go

/-! ## Decoding -/

theorem decodeRune_ascii {b : UInt8} (h : b.toNat < 0x80) (rest : List UInt8) :
    decodeRune (b :: rest) = (b.toNat, 1) := if_pos h

/-- What a first byte announces: its length, and a second byte that keeps the rune
out of the range of shorter sequences. -/
theorem leadByte_cases (x : Nat) :
    leadByte x = none ∨ ∃ lo hi, 0x80 ≤ lo ∧ hi ≤ 0xBF ∧
      ((leadByte x = some (2, lo, hi) ∧ 2 ≤ x % 0x20) ∨
        (leadByte x = some (3, lo, hi) ∧ (1 ≤ x % 0x10 ∨ 0xA0 ≤ lo)) ∨
        (leadByte x = some (4, lo, hi) ∧ (1 ≤ x % 0x8 ∨ 0x90 ≤ lo))) := by
  unfold leadByte
  repeat' split
  all_goals simp
  all_goals omega

theorem isContinuation_ge {x : Nat} (h : isContinuation x = true) : 0x80 ≤ x := by
  simp only [isContinuation, Bool.and_eq_true, decide_eq_true_eq] at h
  exact h.1

/-- The bytes from `b` on start with a sequence of one rune that decodes alike
whatever follows it; none of its bytes is ASCII. -/
def Sequence (b : UInt8) (rest : List UInt8) : Prop :=
  ∃ tail t r, rest = tail ++ t ∧ (∀ c ∈ tail, 0x80 ≤ c.toNat) ∧ 0x80 ≤ r ∧
    ∀ t', decodeRune (b :: (tail ++ t')) = (r, tail.length + 1)

section Sequences

variable {b : UInt8} (h : ¬ b.toNat < 0x80) {lo hi : Nat} (hlo : 0x80 ≤ lo)
include h hlo

theorem decodeRune_two (hlead : leadByte b.toNat = some (2, lo, hi)) (hx : 2 ≤ b.toNat % 0x20)
    (rest : List UInt8) : decodeRune (b :: rest) = (runeError, 1) ∨ Sequence b rest := by
  rcases rest with _ | ⟨b1, t⟩
  · left
    simp only [decodeRune, runeSelf, if_neg h, hlead]
  · by_cases hseq : lo ≤ b1.toNat ∧ b1.toNat ≤ hi
    · right
      refine ⟨[b1], t, b.toNat % 0x20 * 0x40 + b1.toNat % 0x40, rfl, ?_, by omega, ?_⟩
      · simp only [List.mem_singleton, forall_eq]
        omega
      · intro t'
        simp only [List.cons_append, decodeRune, runeSelf, if_neg h, hlead, if_pos hseq,
          List.length_singleton]
    · left
      simp only [decodeRune, runeSelf, if_neg h, hlead, if_neg hseq]

theorem decodeRune_three (hhi : hi ≤ 0xBF) (hlead : leadByte b.toNat = some (3, lo, hi))
    (hx : 1 ≤ b.toNat % 0x10 ∨ 0xA0 ≤ lo) (rest : List UInt8) :
    decodeRune (b :: rest) = (runeError, 1) ∨ Sequence b rest := by
  rcases rest with _ | ⟨b1, _ | ⟨b2, t⟩⟩
  · left
    simp only [decodeRune, runeSelf, if_neg h, hlead]
  · left
    simp only [decodeRune, runeSelf, if_neg h, hlead]
  · by_cases hseq : lo ≤ b1.toNat ∧ b1.toNat ≤ hi ∧ isContinuation b2.toNat = true
    · right
      have hb2 := isContinuation_ge hseq.2.2
      refine ⟨[b1, b2], t, b.toNat % 0x10 * 0x1000 + b1.toNat % 0x40 * 0x40 + b2.toNat % 0x40,
        rfl, ?_, by omega, ?_⟩
      · simp only [List.mem_cons, List.not_mem_nil, or_false, forall_eq_or_imp, forall_eq]
        omega
      · intro t'
        simp only [List.cons_append, decodeRune, runeSelf, if_neg h, hlead, if_pos hseq]
        rfl
    · left
      simp only [decodeRune, runeSelf, if_neg h, hlead, if_neg hseq]

theorem decodeRune_four (hhi : hi ≤ 0xBF) (hlead : leadByte b.toNat = some (4, lo, hi))
    (hx : 1 ≤ b.toNat % 0x8 ∨ 0x90 ≤ lo) (rest : List UInt8) :
    decodeRune (b :: rest) = (runeError, 1) ∨ Sequence b rest := by
  rcases rest with _ | ⟨b1, _ | ⟨b2, _ | ⟨b3, t⟩⟩⟩
  · left
    simp only [decodeRune, runeSelf, if_neg h, hlead]
  · left
    simp only [decodeRune, runeSelf, if_neg h, hlead]
  · left
    simp only [decodeRune, runeSelf, if_neg h, hlead]
  · by_cases hseq : lo ≤ b1.toNat ∧ b1.toNat ≤ hi ∧ isContinuation b2.toNat = true ∧
        isContinuation b3.toNat = true
    · right
      have hb2 := isContinuation_ge hseq.2.2.1
      have hb3 := isContinuation_ge hseq.2.2.2
      refine ⟨[b1, b2, b3], t, b.toNat % 0x8 * 0x40000 + b1.toNat % 0x40 * 0x1000 +
        b2.toNat % 0x40 * 0x40 + b3.toNat % 0x40, rfl, ?_, by omega, ?_⟩
      · simp only [List.mem_cons, List.not_mem_nil, or_false, forall_eq_or_imp, forall_eq]
        omega
      · intro t'
        simp only [List.cons_append, decodeRune, runeSelf, if_neg h, hlead, if_pos hseq]
        rfl
    · left
      simp only [decodeRune, runeSelf, if_neg h, hlead, if_neg hseq]

end Sequences

/-- A first byte that is not ASCII is an error by itself, or starts a sequence. -/
theorem decodeRune_cases {b : UInt8} (h : ¬ b.toNat < 0x80) (rest : List UInt8) :
    decodeRune (b :: rest) = (runeError, 1) ∨ Sequence b rest := by
  rcases leadByte_cases b.toNat with hnone | ⟨lo, hi, hlo, hhi, ⟨h2, hx⟩ | ⟨h3, hx⟩ | ⟨h4, hx⟩⟩
  · left
    simp only [decodeRune, runeSelf, if_neg h, hnone]
  · exact decodeRune_two h hlo h2 hx rest
  · exact decodeRune_three h hlo hhi h3 hx rest
  · exact decodeRune_four h hlo hhi h4 hx rest

theorem decodeRune_le {s : List UInt8} (h : s ≠ []) : (decodeRune s).2 ≤ s.length := by
  cases s with
  | nil => exact absurd rfl h
  | cons b rest =>
      by_cases hb : b.toNat < 0x80
      · rw [decodeRune_ascii hb]
        simp
      · rcases decodeRune_cases hb rest with herr | ⟨tail, t, r, rfl, _, _, hdec⟩
        · rw [herr]
          simp
        · rw [hdec t]
          simp

/-- An ASCII byte behind it does not change how a sequence decodes. -/
theorem decodeRune_append_ascii {s : List UInt8} (hs : s ≠ []) {c : UInt8} (hc : c.toNat < 0x80)
    (rest : List UInt8) : decodeRune (s ++ c :: rest) = decodeRune s := by
  cases s with
  | nil => exact absurd rfl hs
  | cons b s =>
      rw [List.cons_append]
      by_cases hb : b.toNat < 0x80
      · rw [decodeRune_ascii hb, decodeRune_ascii hb]
      · rcases decodeRune_cases hb s with herr | ⟨tail, t, r, rfl, _, _, hdec⟩
        · rcases decodeRune_cases hb (s ++ c :: rest) with herr' | ⟨tail, t, r, heq, htail, _, hdec⟩
          · rw [herr, herr']
          · -- the sequence has no ASCII byte in it, so it lies in `s`
            rcases List.append_eq_append_iff.mp heq with ⟨mid, rfl, hmid⟩ | ⟨mid, rfl, _⟩
            · cases mid with
              | nil =>
                  have hsame := hdec []
                  rw [List.append_nil] at hdec hsame
                  rw [hdec, ← List.append_nil s, hsame]
              | cons d mid =>
                  obtain ⟨rfl, _⟩ := List.cons.inj hmid
                  have := htail c (by simp)
                  omega
            · rw [List.append_assoc, hdec, hdec]
        · rw [List.append_assoc, hdec, hdec]

/-! ## Encoding -/

theorem encodeRune_ascii {r : Nat} (h : r < 0x80) : encodeRune r = [UInt8.ofNat r] := if_pos h

theorem encodeRune_ne_nil (r : Nat) : encodeRune r ≠ [] := by
  unfold encodeRune
  repeat' split
  all_goals simp

/-- The bytes of a longer encoding are not ASCII. -/
theorem encodeRune_ge {r : Nat} (h : 0x80 ≤ r) : ∀ b ∈ encodeRune r, 0x80 ≤ b.toNat := by
  intro b hb
  unfold encodeRune at hb
  rw [if_neg (by omega)] at hb
  have hmod : ∀ n, 0x80 ≤ n → n < 256 → 0x80 ≤ (UInt8.ofNat n).toNat := by
    intro n hge hlt
    rw [UInt8.toNat_ofNat']
    omega
  split at hb
  · simp only [List.mem_cons, List.not_mem_nil, or_false] at hb
    rcases hb with rfl | rfl <;> exact hmod _ (by omega) (by omega)
  · split at hb
    · simp only [List.mem_cons, List.not_mem_nil, or_false] at hb
      rcases hb with rfl | rfl | rfl <;> decide
    · rename_i hvalid
      have hmax : r ≤ 0x10FFFF := by
        by_contra hbig
        exact hvalid (.inl (by rw [maxRune]; omega))
      split at hb
      · simp only [List.mem_cons, List.not_mem_nil, or_false] at hb
        rcases hb with rfl | rfl | rfl <;> exact hmod _ (by omega) (by omega)
      · simp only [List.mem_cons, List.not_mem_nil, or_false] at hb
        rcases hb with rfl | rfl | rfl | rfl <;> exact hmod _ (by omega) (by omega)

/-! ## Mapping -/

section Map

variable (f : Nat → Nat)

@[simp] theorem mapRunes_nil : mapRunes f [] = [] := by
  rw [mapRunes, dif_pos rfl]

theorem mapRunes_step {s : List UInt8} (h : s ≠ []) :
    mapRunes f s = encodeRune (f (decodeRune s).1) ++ mapRunes f (s.drop (decodeRune s).2) := by
  rw [mapRunes, dif_neg h]

theorem mapRunes_cons_ascii {b : UInt8} (h : b.toNat < 0x80) (rest : List UInt8) :
    mapRunes f (b :: rest) = encodeRune (f b.toNat) ++ mapRunes f rest := by
  rw [mapRunes_step f (by simp), decodeRune_ascii h]
  rfl

/-- One rune that is not ASCII, whether valid or not: no byte of it is ASCII. -/
theorem mapRunes_cons_high {b : UInt8} (h : ¬ b.toNat < 0x80) (rest : List UInt8) :
    ∃ tail t r, rest = tail ++ t ∧ (∀ c ∈ tail, 0x80 ≤ c.toNat) ∧ 0x80 ≤ r ∧
      mapRunes f (b :: rest) = encodeRune (f r) ++ mapRunes f t := by
  rcases decodeRune_cases h rest with herr | ⟨tail, t, r, rfl, htail, hr, hdec⟩
  · refine ⟨[], rest, runeError, rfl, by simp, by decide, ?_⟩
    rw [mapRunes_step f (by simp), herr]
    rfl
  · refine ⟨tail, t, r, rfl, htail, hr, ?_⟩
    rw [mapRunes_step f (by simp), hdec t]
    show encodeRune (f r) ++ mapRunes f (List.drop (tail.length + 1) (b :: (tail ++ t))) = _
    rw [List.drop_succ_cons, List.drop_left]

/-- A map can be taken apart before every ASCII byte. -/
theorem mapRunes_append_ascii (s : List UInt8) {c : UInt8} (hc : c.toNat < 0x80)
    (rest : List UInt8) :
    mapRunes f (s ++ c :: rest) = mapRunes f s ++ mapRunes f (c :: rest) := by
  -- strong induction on the length: one rune of `s` at a time
  generalize hlen : s.length = k
  induction k using Nat.strong_induction_on generalizing s with
  | _ k ih =>
      by_cases hs : s = []
      · subst hs
        rw [List.nil_append, mapRunes_nil, List.nil_append]
      · have hpos := decodeRune_pos hs
        have hle := decodeRune_le hs
        have hdrop : (s ++ c :: rest).drop (decodeRune s).2 =
            s.drop (decodeRune s).2 ++ c :: rest := by
          rw [List.drop_append_of_le_length hle]
        have hrest := ih (s.drop (decodeRune s).2).length
          (by rw [List.length_drop]; omega) (s.drop (decodeRune s).2) rfl
        rw [mapRunes_step f (by simp), mapRunes_step f hs, decodeRune_append_ascii hs hc, hdrop,
          hrest, List.append_assoc]

end Map

/-! ## Lower case -/

/-- Only letters change: no other byte is lowered to a byte that is not a letter. -/
theorem lowerByte_eq {b c : UInt8} (hc : c.toNat < 0x61) (h : lowerByte b = c) : b = c := by
  have hb : b.toNat < 256 := b.toNat_lt
  have hval := congrArg UInt8.toNat h
  rw [lowerByte, UInt8.toNat_ofNat'] at hval
  apply UInt8.toNat_inj.mp
  unfold asciiLower at hval
  split at hval <;> omega

theorem notMem_lower {c : UInt8} (hc : c.toNat < 0x61) {s : List UInt8} (h : c ∉ s) :
    c ∉ s.map lowerByte := by
  intro hmem
  obtain ⟨b, hb, heq⟩ := List.mem_map.mp hmem
  rw [lowerByte_eq hc heq] at hb
  exact h hb

/-! ## Searching -/

theorem indexOf_zero {s sep : List UInt8} (h : sep <+: s) : indexOf s sep = some 0 := by
  rw [indexOf.eq_def, if_pos (List.isPrefixOf_iff_prefix.mpr h)]

theorem indexOf_cons {b : UInt8} {s sep : List UInt8} (h : ¬ sep <+: b :: s) :
    indexOf (b :: s) sep = (indexOf s sep).map (· + 1) := by
  rw [indexOf.eq_def, if_neg (by rwa [List.isPrefixOf_iff_prefix])]

@[simp] theorem indexOf_nil_cons (c : UInt8) (sep : List UInt8) : indexOf [] (c :: sep) = none :=
  rfl

theorem indexOf_found {s sep : List UInt8} {i : Nat} (h : indexOf s sep = some i) :
    sep <+: s.drop i := by
  induction s generalizing i with
  | nil =>
      rw [indexOf.eq_def] at h
      split at h
      · rename_i hp
        cases h
        exact List.isPrefixOf_iff_prefix.mp hp
      · cases h
  | cons b s ih =>
      by_cases hp : sep <+: b :: s
      · rw [indexOf_zero hp] at h
        cases h
        exact hp
      · rw [indexOf_cons hp, Option.map_eq_some_iff] at h
        obtain ⟨k, hk, rfl⟩ := h
        exact ih hk

/-- A part without the first byte of the separator is skipped. -/
theorem indexOf_append {c : UInt8} {skipped : List UInt8} (h : c ∉ skipped)
    (s sep : List UInt8) :
    indexOf (skipped ++ s) (c :: sep) = (indexOf s (c :: sep)).map (· + skipped.length) := by
  induction skipped with
  | nil => simp
  | cons b skipped ih =>
      rw [List.mem_cons, not_or] at h
      rw [List.cons_append, indexOf_cons (by rw [List.cons_prefix_cons]; exact fun hp => h.1 hp.1),
        ih h.2, Option.map_map]
      congr 1

/-- In a shorter text the first match is found if it lies in it. -/
theorem indexOf_take (c : UInt8) (sep s : List UInt8) (k : Nat) :
    indexOf (s.take k) (c :: sep) =
      (indexOf s (c :: sep)).filter fun i => i + (c :: sep).length ≤ k := by
  induction s generalizing k with
  | nil => simp
  | cons b s ih =>
      cases k with
      | zero => simp
      | succ k =>
          have hstarts : c :: sep <+: b :: s.take k ↔
              c :: sep <+: b :: s ∧ (c :: sep).length ≤ k + 1 := by
            rw [← List.take_succ_cons, List.prefix_take_iff]
          rw [List.take_succ_cons]
          by_cases hp : c :: sep <+: b :: s
          · rw [indexOf_zero hp]
            by_cases hlen : (c :: sep).length ≤ k + 1
            · rw [indexOf_zero (hstarts.mpr ⟨hp, hlen⟩)]
              simp only [List.length_cons] at hlen
              simp [Option.filter, hlen]
            -- cut before it is complete: what follows starts later and is cut as well
            · rw [indexOf_cons fun hq => hlen (hstarts.mp hq).2, ih]
              simp only [List.length_cons] at hlen ⊢
              cases indexOf s (c :: sep) with
              | none => simp [Option.filter, hlen]
              | some i => simp [Option.filter, hlen]; omega
          · rw [indexOf_cons hp, indexOf_cons fun hq => hp (hstarts.mp hq).1, ih]
            simp only [List.length_cons]
            cases indexOf s (c :: sep) with
            | none => rfl
            | some i =>
                simp only [Option.filter, Option.map_some]
                by_cases hi : i + (sep.length + 1) ≤ k
                · rw [if_pos (by simpa using hi), if_pos (by simp; omega), Option.map_some]
                · rw [if_neg (by simpa using hi), if_neg (by simp; omega), Option.map_none]

end AiInterceptor.Go
