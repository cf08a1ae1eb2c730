import AiInterceptor.Logic.Runes

/-!
# Trimming

`TrimSpace` takes runes off both ends. ASCII blanks around a text that starts and
ends with something else are exactly what it takes (`trimSpace_blanks`). A byte
added at the end is trimmed away again only if it is an ASCII blank
(`trimSpace_concat_iff`): the last byte of a longer blank makes a rune of the bytes
in front of it, which stood there as invalid bytes before and were kept.
-/

namespace AiInterceptor.Go

/-! ## ASCII blanks -/

section Trim

variable {c : UInt8} (hc : c.toNat < 0x80)
include hc

theorem trimLeftSpace_blank (hsp : isSpace c.toNat = true) (s : List UInt8) :
    trimLeftSpace (c :: s) = trimLeftSpace s := by
  rw [trimLeftSpace, dif_neg (by simp), decodeRune_ascii hc, if_pos hsp]
  rfl

theorem trimLeftSpace_stop (hsp : isSpace c.toNat = false) (s : List UInt8) :
    trimLeftSpace (c :: s) = c :: s := by
  rw [trimLeftSpace, dif_neg (by simp), decodeRune_ascii hc, if_neg (by simp [hsp])]

theorem decodeLastRune_ascii (s : List UInt8) : decodeLastRune (s ++ [c]) = (c.toNat, 1) := by
  rw [decodeLastRune, List.getLast?_concat]
  exact if_pos hc

theorem trimRightSpace_blank (hsp : isSpace c.toNat = true) (s : List UInt8) :
    trimRightSpace (s ++ [c]) = trimRightSpace s := by
  rw [trimRightSpace, dif_neg (by simp), decodeLastRune_ascii hc, if_pos hsp]
  simp

theorem trimRightSpace_stop (hsp : isSpace c.toNat = false) (s : List UInt8) :
    trimRightSpace (s ++ [c]) = s ++ [c] := by
  rw [trimRightSpace, dif_neg (by simp), decodeLastRune_ascii hc, if_neg (by simp [hsp])]

end Trim

/-- An ASCII blank. -/
def Blank (c : UInt8) : Prop := c.toNat < 0x80 ∧ isSpace c.toNat = true

/-- Text that is empty, or starts and ends with an ASCII byte that is no blank. -/
structure Trimmed (s : List UInt8) : Prop where
  first : ∀ c, s.head? = some c → c.toNat < 0x80 ∧ isSpace c.toNat = false
  last : ∀ c, s.getLast? = some c → c.toNat < 0x80 ∧ isSpace c.toNat = false

theorem trimLeftSpace_blanks {lead : List UInt8} (h : ∀ c ∈ lead, Blank c) (s : List UInt8) :
    trimLeftSpace (lead ++ s) = trimLeftSpace s := by
  induction lead with
  | nil => rfl
  | cons c lead ih =>
      have hc := h c List.mem_cons_self
      rw [List.cons_append, trimLeftSpace_blank hc.1 hc.2,
        ih fun d hd => h d (List.mem_cons_of_mem c hd)]

theorem trimRightSpace_blanks {trail : List UInt8} (h : ∀ c ∈ trail, Blank c) (s : List UInt8) :
    trimRightSpace (s ++ trail) = trimRightSpace s := by
  induction trail generalizing s with
  | nil => rw [List.append_nil]
  | cons c trail ih =>
      have hc := h c List.mem_cons_self
      rw [List.append_cons, ih (fun d hd => h d (List.mem_cons_of_mem c hd)) (s ++ [c]),
        trimRightSpace_blank hc.1 hc.2]

/-- Blanks on both sides are what is trimmed. -/
theorem trimSpace_blanks {lead value trail : List UInt8} (hlead : ∀ c ∈ lead, Blank c)
    (hvalue : Trimmed value) (htrail : ∀ c ∈ trail, Blank c) :
    trimSpace (lead ++ value ++ trail) = value := by
  rw [trimSpace, List.append_assoc, trimLeftSpace_blanks hlead]
  cases value with
  | nil =>
      have hnil := trimLeftSpace_blanks htrail []
      rw [List.append_nil] at hnil
      rw [List.nil_append, hnil, trimLeftSpace, dif_pos rfl, trimRightSpace, dif_pos rfl]
  | cons c rest =>
      obtain ⟨hc, hsp⟩ := hvalue.first c rfl
      rw [List.cons_append, trimLeftSpace_stop hc hsp, ← List.cons_append,
        trimRightSpace_blanks htrail]
      have hne : c :: rest ≠ [] := List.cons_ne_nil c rest
      obtain ⟨hd, hsp'⟩ := hvalue.last _ (List.getLast?_eq_getLast_of_ne_nil hne)
      rw [← List.dropLast_append_getLast hne]
      exact trimRightSpace_stop hd hsp' _

/-! ## From the left -/

theorem isSpace_runeError : isSpace runeError = false := by decide

/-- A blank at the start does not depend on what follows. -/
theorem decodeRune_space {s : List UInt8} (hs : s ≠ []) (hsp : isSpace (decodeRune s).1 = true)
    (t : List UInt8) : decodeRune (s ++ t) = decodeRune s := by
  cases s with
  | nil => exact absurd rfl hs
  | cons b s =>
      rw [List.cons_append]
      by_cases hb : b.toNat < 0x80
      · rw [decodeRune_ascii hb, decodeRune_ascii hb]
      · rcases decodeRune_cases hb s with herr | ⟨tail, t', r, rfl, _, _, hdec⟩
        · rw [herr, isSpace_runeError] at hsp
          cases hsp
        · rw [List.append_assoc, hdec, hdec]

theorem trimLeftSpace_step {s : List UInt8} (hs : s ≠ [])
    (hsp : isSpace (decodeRune s).1 = true) :
    trimLeftSpace s = trimLeftSpace (s.drop (decodeRune s).2) := by
  rw [trimLeftSpace, dif_neg hs, if_pos hsp]

theorem trimLeftSpace_keep {s : List UInt8} (hsp : isSpace (decodeRune s).1 = false) :
    trimLeftSpace s = s := by
  rw [trimLeftSpace]
  by_cases hs : s = []
  · rw [dif_pos hs, hs]
  · rw [dif_neg hs, if_neg (by simp [hsp])]

/-- Blanks in front are trimmed whatever follows, and what is left starts with
none. -/
theorem trimLeftSpace_append (s t : List UInt8) :
    trimLeftSpace (s ++ t) = trimLeftSpace (trimLeftSpace s ++ t) ∧
      isSpace (decodeRune (trimLeftSpace s)).1 = false := by
  generalize hlen : s.length = k
  induction k using Nat.strong_induction_on generalizing s with
  | _ k ih =>
      cases hsp : isSpace (decodeRune s).1 with
      | false =>
          rw [trimLeftSpace_keep hsp]
          exact ⟨rfl, hsp⟩
      | true =>
          have hs : s ≠ [] := by
            rintro rfl
            cases hsp
          have hpos := decodeRune_pos hs
          have hle := decodeRune_le hs
          have hdec := decodeRune_space hs hsp t
          have ih := ih (s.drop (decodeRune s).2).length
            (by rw [List.length_drop]; omega) (s.drop (decodeRune s).2) rfl
          rw [trimLeftSpace_step hs hsp]
          -- a rune of white space is decoded the same with more behind it
          refine ⟨?_, ih.2⟩
          rw [trimLeftSpace_step (by simp [hs]) (by rw [hdec]; exact hsp), hdec,
            List.drop_append_of_le_length hle]
          exact ih.1

/-! ## From the right -/

theorem trimRightSpace_keep {s : List UInt8} (hsp : isSpace (decodeLastRune s).1 = false) :
    trimRightSpace s = s := by
  rw [trimRightSpace]
  by_cases hs : s = []
  · rw [dif_pos hs, hs]
  · rw [dif_neg hs, if_neg (by simp [hsp])]

theorem trimRightSpace_length (s : List UInt8) : (trimRightSpace s).length ≤ s.length := by
  generalize hlen : s.length = k
  induction k using Nat.strong_induction_on generalizing s with
  | _ k ih =>
      cases hsp : isSpace (decodeLastRune s).1 with
      | false =>
          rw [trimRightSpace_keep hsp]
          exact Nat.le_of_eq hlen
      | true =>
          have hs : s ≠ [] := by
            rintro rfl
            cases hsp
          have hpos := decodeLastRune_pos hs
          have hne := List.length_pos_of_ne_nil hs
          have hshort : (s.take (s.length - (decodeLastRune s).2)).length < k := by
            rw [List.length_take]
            omega
          have := ih _ hshort _ rfl
          rw [trimRightSpace, dif_neg hs, if_pos hsp]
          omega

/-! ## Sequences and their last byte -/

/-- A sequence of several bytes with nothing behind it: a lead byte, and no more
continuation bytes than it announces. -/
structure Whole (b : UInt8) (tail : List UInt8) : Prop where
  lead : 0x80 ≤ b.toNat ∧ isContinuation b.toNat = false
  continued : ∀ c ∈ tail, isContinuation c.toNat = true
  size : 1 ≤ tail.length ∧ tail.length ≤ 3
  cut : ∀ u, u.length < tail.length → decodeRune (b :: u) = (runeError, 1)

theorem leadByte_start {x : Nat} {l : Nat × Nat × Nat} (h : leadByte x = some l) :
    0x80 ≤ x ∧ isContinuation x = false := by
  have hge : 0xC2 ≤ x := by
    unfold leadByte at h
    repeat' split at h
    all_goals first | omega | cases h
  refine ⟨by omega, ?_⟩
  simp only [isContinuation, Bool.and_eq_false_iff, decide_eq_false_iff_not]
  omega

theorem isContinuation_of_range {x lo hi : Nat} (hlo : 0x80 ≤ lo) (hhi : hi ≤ 0xBF)
    (h : lo ≤ x ∧ x ≤ hi) : isContinuation x = true := by
  simp only [isContinuation, Bool.and_eq_true, decide_eq_true_eq]
  omega

section Whole

variable {b : UInt8} {tail : List UInt8} {lo hi : Nat} (hb : ¬ b.toNat < 0x80) (hlo : 0x80 ≤ lo)
  (hhi : hi ≤ 0xBF) (hsize : (decodeRune (b :: tail)).2 = (b :: tail).length) (htail : tail ≠ [])
include hb hlo hhi hsize htail

theorem whole_two (hlead : leadByte b.toNat = some (2, lo, hi)) : Whole b tail := by
  rcases tail with _ | ⟨b1, t⟩
  · exact absurd rfl htail
  · simp only [decodeRune, runeSelf, if_neg hb, hlead] at hsize
    split at hsize
    · rename_i h1
      obtain rfl : t = [] := by simpa using hsize
      refine ⟨leadByte_start hlead, ?_, by simp, ?_⟩
      · simpa using isContinuation_of_range hlo hhi h1
      · intro u hu
        obtain rfl : u = [] := by simpa using hu
        simp only [decodeRune, runeSelf, if_neg hb, hlead]
    · simp at hsize

theorem whole_three (hlead : leadByte b.toNat = some (3, lo, hi)) : Whole b tail := by
  have hshort : ∀ u : List UInt8, u.length < 2 → decodeRune (b :: u) = (runeError, 1) := by
    intro u hu
    rcases u with _ | ⟨c1, _ | ⟨c2, u⟩⟩
    · simp only [decodeRune, runeSelf, if_neg hb, hlead]
    · simp only [decodeRune, runeSelf, if_neg hb, hlead]
    · simp only [List.length_cons] at hu
      omega
  rcases tail with _ | ⟨b1, _ | ⟨b2, t⟩⟩
  · exact absurd rfl htail
  · rw [hshort [b1] (by simp)] at hsize
    simp at hsize
  · simp only [decodeRune, runeSelf, if_neg hb, hlead] at hsize
    split at hsize
    · rename_i h12
      obtain rfl : t = [] := by simpa using hsize
      refine ⟨leadByte_start hlead, ?_, by simp, hshort⟩
      simpa using And.intro (isContinuation_of_range hlo hhi ⟨h12.1, h12.2.1⟩) h12.2.2
    · simp at hsize

theorem whole_four (hlead : leadByte b.toNat = some (4, lo, hi)) : Whole b tail := by
  have hshort : ∀ u : List UInt8, u.length < 3 → decodeRune (b :: u) = (runeError, 1) := by
    intro u hu
    rcases u with _ | ⟨c1, _ | ⟨c2, _ | ⟨c3, u⟩⟩⟩
    · simp only [decodeRune, runeSelf, if_neg hb, hlead]
    · simp only [decodeRune, runeSelf, if_neg hb, hlead]
    · simp only [decodeRune, runeSelf, if_neg hb, hlead]
    · simp only [List.length_cons] at hu
      omega
  rcases tail with _ | ⟨b1, _ | ⟨b2, _ | ⟨b3, t⟩⟩⟩
  · exact absurd rfl htail
  · rw [hshort [b1] (by simp)] at hsize
    simp at hsize
  · rw [hshort [b1, b2] (by simp)] at hsize
    simp at hsize
  · simp only [decodeRune, runeSelf, if_neg hb, hlead] at hsize
    split at hsize
    · rename_i h123
      obtain rfl : t = [] := by simpa using hsize
      refine ⟨leadByte_start hlead, ?_, by simp, hshort⟩
      simpa using And.intro (isContinuation_of_range hlo hhi ⟨h123.1, h123.2.1⟩) h123.2.2
    · simp at hsize

end Whole

theorem whole_of_size {b : UInt8} {tail : List UInt8} (htail : tail ≠ [])
    (hsize : (decodeRune (b :: tail)).2 = (b :: tail).length) : Whole b tail := by
  have hlen : tail.length ≠ 0 := by simpa using htail
  have hb : ¬ b.toNat < 0x80 := by
    intro hb
    rw [decodeRune_ascii hb, List.length_cons] at hsize
    omega
  rcases leadByte_cases b.toNat with hnone | ⟨lo, hi, hlo, hhi, ⟨h2, _⟩ | ⟨h3, _⟩ | ⟨h4, _⟩⟩
  · simp only [decodeRune, runeSelf, if_neg hb, hnone, List.length_cons] at hsize
    omega
  · exact whole_two hb hlo hhi hsize htail h2
  · exact whole_three hb hlo hhi hsize htail h3
  · exact whole_four hb hlo hhi hsize htail h4

/-- The last rune, when it is not ASCII: an error, or the bytes from the nearest one
in front of the last that is no continuation. -/
theorem decodeLastRune_high {s : List UInt8} {c : UInt8} (hc : 0x80 ≤ c.toNat) :
    decodeLastRune (s ++ [c]) = (runeError, 1) ∨
      ∃ z b tail, s = z ++ b :: tail ∧ (decodeRune (b :: (tail ++ [c]))).2 = tail.length + 2 ∧
        (decodeLastRune (s ++ [c])).2 = tail.length + 2 := by
  rw [decodeLastRune, List.getLast?_concat]
  simp only [if_neg (show ¬ c.toNat < runeSelf by rw [runeSelf]; omega)]
  split
  · exact .inl rfl
  · rename_i j hj
    have hbound : 2 ≤ j := by
      have hmem := List.mem_of_find?_eq_some hj
      simp only [List.mem_cons, List.not_mem_nil, or_false] at hmem
      omega
    have hle : j ≤ s.length + 1 := by
      have hp := List.find?_some hj
      simp only [Bool.and_eq_true, decide_eq_true_eq, List.length_append,
        List.length_singleton] at hp
      exact hp.1
    split
    · rename_i hsize
      right
      -- the bytes from there on are part of `s` and the last byte
      cases hdrop : s.drop (s.length + 1 - j) with
      | nil =>
          rw [List.drop_eq_nil_iff] at hdrop
          omega
      | cons b tail =>
          have hlen := congrArg List.length hdrop
          rw [List.length_drop, List.length_cons] at hlen
          have hwhole : (s ++ [c]).drop ((s ++ [c]).length - j) = b :: (tail ++ [c]) := by
            rw [List.length_append, List.length_singleton,
              List.drop_append_of_le_length (by omega), hdrop, List.cons_append]
          refine ⟨s.take (s.length + 1 - j), b, tail, ?_, ?_, ?_⟩
          · rw [← hdrop, List.take_append_drop]
          · rw [← hwhole, hsize]
            omega
          · show (decodeRune ((s ++ [c]).drop ((s ++ [c]).length - j))).2 = _
            rw [hsize]
            omega
    · exact .inl rfl

/-- The lead byte of the last sequence is the last byte that is no continuation. -/
theorem lead_unique {z z' tail tail' : List UInt8} {b b' : UInt8}
    (hb : isContinuation b.toNat = false) (hb' : isContinuation b'.toNat = false)
    (htail : ∀ c ∈ tail, isContinuation c.toNat = true)
    (htail' : ∀ c ∈ tail', isContinuation c.toNat = true)
    (h : z ++ b :: tail = z' ++ b' :: tail') : b = b' ∧ tail = tail' := by
  rcases List.append_eq_append_iff.mp h with ⟨mid, _, hmid⟩ | ⟨mid, _, hmid⟩
  · cases mid with
    | nil => exact List.cons.inj hmid
    | cons x mid =>
        obtain ⟨_, rfl⟩ := List.cons.inj hmid
        rw [htail b' (by simp)] at hb'
        cases hb'
  · cases mid with
    | nil =>
        obtain ⟨rfl, rfl⟩ := List.cons.inj hmid
        exact ⟨rfl, rfl⟩
    | cons x mid =>
        obtain ⟨_, rfl⟩ := List.cons.inj hmid
        rw [htail' b (by simp)] at hb
        cases hb

/-- A sequence without its last byte is no rune. -/
theorem decodeLastRune_cut {b c : UInt8} {tail : List UInt8} (h : Whole b (tail ++ [c]))
    (z : List UInt8) : decodeLastRune (z ++ b :: tail) = (runeError, 1) := by
  rcases List.eq_nil_or_concat tail with rfl | ⟨front, d, rfl⟩
  · rcases @decodeLastRune_high z b h.lead.1 with herr | ⟨z', b', tail', _, hsize, _⟩
    · exact herr
    · -- the lead byte would have to be a continuation
      have hw := whole_of_size (by simp) (hsize.trans (by simp))
      have hcont := hw.continued b (by simp)
      rw [h.lead.2] at hcont
      cases hcont
  · have hd := isContinuation_ge (h.continued d (by simp))
    rw [List.concat_eq_append] at h ⊢
    rw [← List.cons_append, ← List.append_assoc]
    rcases @decodeLastRune_high (z ++ b :: front) d hd with herr | ⟨z', b', tail', hs, hsize, _⟩
    · exact herr
    · have hw := whole_of_size (by simp) (hsize.trans (by simp))
      obtain ⟨rfl, rfl⟩ := lead_unique h.lead.2 hw.lead.2
        (fun c hc => h.continued c (by simp [hc])) (fun c hc => hw.continued c (by simp [hc])) hs
      rw [h.cut (front ++ [d]) (by simp)] at hsize
      simp at hsize

/-! ## A byte at the end -/

/-- A sequence that the last byte completes makes one rune of bytes that were kept
before. -/
theorem trimRightSpace_cut {b c : UInt8} {tail : List UInt8} (h : Whole b (tail ++ [c]))
    (z : List UInt8) : trimRightSpace (z ++ b :: tail) = z ++ b :: tail := by
  apply trimRightSpace_keep
  rw [decodeLastRune_cut h]
  exact isSpace_runeError

/-- A single byte that is not ASCII is an error. -/
theorem decodeRune_alone {c : UInt8} (h : ¬ c.toNat < 0x80) : decodeRune [c] = (runeError, 1) := by
  rcases leadByte_cases c.toNat with hnone | ⟨lo, hi, _, _, ⟨hlead, _⟩ | ⟨hlead, _⟩ | ⟨hlead, _⟩⟩
  · simp only [decodeRune, runeSelf, if_neg h, hnone]
  all_goals simp only [decodeRune, runeSelf, if_neg h, hlead]

/-- If a byte at the end makes a text start with a blank, the whole text is that
blank. -/
theorem whole_of_space {y : List UInt8} {c : UInt8} (hblank : ¬ Blank c)
    (hy : isSpace (decodeRune y).1 = false) (hsp : isSpace (decodeRune (y ++ [c])).1 = true) :
    ∃ b tail, y = b :: tail ∧ Whole b (tail ++ [c]) ∧
      (decodeRune (y ++ [c])).2 = (y ++ [c]).length := by
  have hc : ¬ c.toNat < 0x80 := by
    intro hc
    by_cases hnil : y = []
    · rw [hnil, List.nil_append, decodeRune_ascii hc] at hsp
      exact hblank ⟨hc, hsp⟩
    · rw [decodeRune_append_ascii hnil hc, hy] at hsp
      cases hsp
  cases y with
  | nil =>
      rw [List.nil_append, decodeRune_alone hc, isSpace_runeError] at hsp
      cases hsp
  | cons b y =>
      have hb : ¬ b.toNat < 0x80 := by
        intro hb
        rw [List.cons_append, decodeRune_ascii hb] at hsp
        rw [decodeRune_ascii hb, hsp] at hy
        cases hy
      rcases decodeRune_cases hb (y ++ [c]) with herr | ⟨tail, t, r, heq, _, _, hdec⟩
      · rw [List.cons_append, herr, isSpace_runeError] at hsp
        cases hsp
      · rcases List.eq_nil_or_concat t with rfl | ⟨t, d, rfl⟩
        · rw [List.append_nil] at heq
          have hsize : (decodeRune (b :: (y ++ [c]))).2 = (b :: (y ++ [c])).length := by
            rw [heq, ← List.append_nil tail, hdec]
            simp
          exact ⟨b, y, rfl, whole_of_size (by simp) hsize, hsize⟩
        · -- the blank would be there without the last byte
          rw [List.concat_eq_append, ← List.append_assoc] at heq
          obtain ⟨rfl, _⟩ := List.append_inj' heq rfl
          rw [List.cons_append, List.append_assoc, hdec] at hsp
          rw [hdec, hsp] at hy
          cases hy

/-- **A byte added at the end is trimmed away exactly when it is an ASCII blank.** -/
theorem trimSpace_concat_iff (s : List UInt8) (c : UInt8) :
    trimSpace (s ++ [c]) = trimSpace s ↔ Blank c := by
  obtain ⟨hleft, hy⟩ := trimLeftSpace_append s [c]
  rw [trimSpace, trimSpace, hleft]
  generalize trimLeftSpace s = y at hy ⊢
  constructor
  · intro heq
    by_contra hblank
    have hlen := congrArg List.length heq
    have hshort := trimRightSpace_length y
    cases hsp : isSpace (decodeRune (y ++ [c])).1 with
    | true =>
        -- the byte completes a rune of white space, and without it the cut rune is kept
        obtain ⟨b, tail, rfl, hwhole, hsize⟩ := whole_of_space hblank hy hsp
        have hkeep := trimRightSpace_cut hwhole []
        rw [List.nil_append] at hkeep
        rw [trimLeftSpace_step (by simp) hsp, hsize, List.drop_length, hkeep, trimLeftSpace,
          dif_pos rfl, trimRightSpace, dif_pos rfl] at heq
        simp at heq
    | false =>
        rw [trimLeftSpace_keep hsp] at hlen
        cases hlast : isSpace (decodeLastRune (y ++ [c])).1 with
        | false =>
            -- the text is one byte longer
            rw [trimRightSpace_keep hlast, List.length_append, List.length_singleton] at hlen
            omega
        | true =>
            have hc : 0x80 ≤ c.toNat := by
              by_contra hc
              rw [decodeLastRune_ascii (by omega)] at hlast
              exact hblank ⟨by omega, hlast⟩
            rcases @decodeLastRune_high y c hc with herr | ⟨z, b, tail, rfl, hsize, hwidth⟩
            · rw [herr, isSpace_runeError] at hlast
              cases hlast
            -- a whole rune goes, where the cut one was kept
            · have hwhole := whole_of_size (by simp) (hsize.trans (by simp))
              have htaken := trimRightSpace_length
                ((z ++ b :: tail ++ [c]).take ((z ++ b :: tail ++ [c]).length - (tail.length + 2)))
              rw [trimRightSpace, dif_neg (by simp), if_pos hlast, hwidth,
                trimRightSpace_cut hwhole] at hlen
              simp only [List.length_take, List.length_append, List.length_cons,
                List.length_nil] at hlen htaken
              omega
  · intro hblank
    by_cases hnil : y = []
    · subst hnil
      rw [List.nil_append, trimLeftSpace_blank hblank.1 hblank.2, trimLeftSpace, dif_pos rfl]
    · have hsp : isSpace (decodeRune (y ++ [c])).1 = false := by
        rw [decodeRune_append_ascii hnil hblank.1]
        exact hy
      rw [trimLeftSpace_keep hsp, trimRightSpace_blank hblank.1 hblank.2]

end AiInterceptor.Go
