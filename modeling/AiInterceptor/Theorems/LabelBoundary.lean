import AiInterceptor.Lib.Blocks
import AiInterceptor.Agent.Dns

/-!
# Labels and the suffix test

`isAIDomain` compares strings, while a domain is a suffix of a name when its
labels are. The dot it puts before the entry is to keep the comparison on a label
boundary. `presentation` is what `dns.Msg.Unpack` yields for a name: labels with
their special bytes escaped, each followed by a dot. Read as a sequence of label
bytes and terminators it can be taken apart at any dot, and a dot is a boundary
or an escaped byte of a label. The second kind passes the string test as well.
-/

namespace AiInterceptor.Theorems.LabelBoundary

open Lib Go Agent

/-! ## Presentation form -/

/-- Bytes of a label that are written with a backslash. -/
def special (b : UInt8) : Bool := decide (b ∈ ascii ". '@;()\"\\")

/-- A byte of a label: as it is, behind a backslash, or as `\DDD`. -/
def escapeByte (b : UInt8) : GoString :=
  if special b then [0x5c, b]
  else if b < 0x20 ∨ 0x7e < b then [0x5c, 0x30 + b / 100, 0x30 + b / 10 % 10, 0x30 + b % 10]
  else [b]

/-- The name field of an unpacked record. -/
def presentation : List GoString → GoString
  | [] => ascii "."
  | labels => labels.flatMap fun l => l.flatMap escapeByte ++ ascii "."

/-- A name on the wire. -/
structure DnsName where
  labels : List GoString
  label_ne : ∀ l ∈ labels, l ≠ []
  label_le : ∀ l ∈ labels, l.length ≤ 63

/-- A plain dotted hostname, as the configuration lists them: no byte of it needs
an escape. -/
structure Hostname where
  labels : List GoString
  labels_ne : labels ≠ []
  label_ne : ∀ l ∈ labels, l ≠ []
  plain : ∀ l ∈ labels, ∀ b ∈ l, escapeByte b = [b]

def Hostname.text (h : Hostname) : GoString := (ascii ".").intercalate h.labels

/-! ## Symbols

A name in presentation form is a sequence of symbols: a label byte (`some b`) or
the end of a label (`none`). -/

def render : Option UInt8 → GoString
  | none => [0x2e]
  | some b => escapeByte b

/-- A decimal digit of a byte. -/
theorem digit_ne_dot {b : UInt8} (h : b < 10) : 0x30 + b ≠ 0x2e := by
  intro heq
  have hval := congrArg UInt8.toNat heq
  rw [UInt8.toNat_add] at hval
  have hval : (48 + b.toNat) % 256 = 46 := hval
  have hlt : b.toNat < 10 := h
  omega

/-- The three shapes of an escaped byte. -/
theorem escapeByte_cases (b : UInt8) :
    (escapeByte b = [0x5c, b]) ∨
    (∃ x y z, escapeByte b = [0x5c, x, y, z] ∧ x ≠ 0x2e ∧ y ≠ 0x2e ∧ z ≠ 0x2e) ∨
    (escapeByte b = [b] ∧ b ≠ 0x2e ∧ b ≠ 0x5c) := by
  unfold escapeByte
  by_cases hs : special b = true
  · exact .inl (if_pos hs)
  · rw [if_neg hs]
    by_cases hp : b < 0x20 ∨ 0x7e < b
    · rw [if_pos hp]
      have hb : b.toNat < 256 := b.toNat_lt
      refine .inr (.inl ⟨_, _, _, rfl, digit_ne_dot ?_, digit_ne_dot ?_, digit_ne_dot ?_⟩)
      · rw [UInt8.lt_iff_toNat_lt, UInt8.toNat_div]
        show b.toNat / 100 < 10
        omega
      · rw [UInt8.lt_iff_toNat_lt, UInt8.toNat_mod]
        exact Nat.mod_lt _ (by decide)
      · rw [UInt8.lt_iff_toNat_lt, UInt8.toNat_mod]
        exact Nat.mod_lt _ (by decide)
    · rw [if_neg hp]
      refine .inr (.inr ⟨rfl, ?_, ?_⟩)
      · rintro rfl
        exact hs (by decide)
      · rintro rfl
        exact hs (by decide)

/-- The only symbols whose text has a dot end with it. -/
theorem render_dot {s : Option UInt8} {front back : GoString}
    (h : render s = front ++ 0x2e :: back) : (s = none ∨ s = some 0x2e) ∧ back = [] := by
  cases s with
  | none =>
      refine ⟨.inl rfl, ?_⟩
      cases front with
      | nil => exact (List.cons.inj h).2.symm
      | cons c front => simp [render] at h
  | some b =>
      change escapeByte b = _ at h
      rcases escapeByte_cases b with heq | ⟨x, y, z, heq, hx, hy, hz⟩ | ⟨heq, hdot, _⟩
      · rw [heq] at h
        -- only the escape of a dot shows one, and right at its end
        match front with
        | [] => simp at h
        | [c] =>
            simp only [List.cons_append, List.nil_append, List.cons.injEq] at h
            exact ⟨.inr (congrArg some h.2.1), h.2.2.symm⟩
        | c :: d :: front => simp at h
      · rw [heq] at h
        have hmem : (0x2e : UInt8) ∈ [0x5c, x, y, z] := by simp [h]
        simp [hx.symm, hy.symm, hz.symm] at hmem
      · rw [heq] at h
        have hmem : (0x2e : UInt8) ∈ [b] := by simp [h]
        simp [hdot.symm] at hmem

/-- A dot of the text is a label end or an escaped dot. -/
theorem render_split {symbols : List (Option UInt8)} {front back : GoString}
    (h : symbols.flatMap render = front ++ 0x2e :: back) :
    ∃ a s b, symbols = a ++ s :: b ∧ (s = none ∨ s = some 0x2e) ∧ b.flatMap render = back := by
  induction symbols generalizing front with
  | nil => simp at h
  | cons s rest ih =>
      have hskip : ∀ mid, rest.flatMap render = mid ++ 0x2e :: back →
          ∃ a s' b, s :: rest = a ++ s' :: b ∧ (s' = none ∨ s' = some 0x2e) ∧
            b.flatMap render = back := by
        intro mid hmid
        obtain ⟨a, s', b, rfl, hs', hb⟩ := ih hmid
        exact ⟨s :: a, s', b, rfl, hs', hb⟩
      rw [List.flatMap_cons] at h
      rcases List.append_eq_append_iff.mp h with ⟨mid, rfl, hmid⟩ | ⟨mid, hs, hmid⟩
      · exact hskip mid hmid
      · cases mid with
        | nil => exact hskip [] hmid.symm
        | cons c mid =>
            obtain ⟨rfl, hback⟩ := List.cons.inj hmid
            obtain ⟨hkind, rfl⟩ := render_dot hs
            exact ⟨[], s, rest, rfl, hkind, hback.symm⟩

/-- Text without a backslash has one reading. -/
theorem render_plain {symbols : List (Option UInt8)}
    (h : (0x5c : UInt8) ∉ symbols.flatMap render) :
    (symbols.flatMap render).map (fun c => if c = 0x2e then none else some c) = symbols := by
  induction symbols with
  | nil => rfl
  | cons s rest ih =>
      rw [List.flatMap_cons, List.mem_append, not_or] at h
      rw [List.flatMap_cons, List.map_append, ih h.2]
      have hs : (render s).map (fun c => if c = 0x2e then none else some c) = [s] := by
        cases s with
        | none => rfl
        | some b =>
            have hb : (0x5c : UInt8) ∉ escapeByte b := h.1
            show (escapeByte b).map _ = _
            rcases escapeByte_cases b with heq | ⟨x, y, z, heq, _⟩ | ⟨heq, hdot, _⟩
            · rw [heq] at hb
              simp at hb
            · rw [heq] at hb
              simp at hb
            · rw [heq]
              simp [hdot]
      rw [hs]
      rfl

/-! ## Texts -/

/-- The symbols of a list of labels render to the labels with their dots. -/
theorem flatMap_terminated (labels : List GoString) :
    (terminated labels).flatMap render =
      labels.flatMap fun l => l.flatMap escapeByte ++ ascii "." := by
  induction labels with
  | nil => rfl
  | cons l rest ih =>
      rw [terminated_cons, List.flatMap_append, List.flatMap_cons, ih, List.flatMap_cons,
        List.flatMap_map, List.append_assoc]
      rfl

/-- The trimmed name, with its dot put back. -/
theorem trimDot_presentation {labels : List GoString} (hne : labels ≠ []) :
    trimDot (presentation labels) ++ ascii "." = (terminated labels).flatMap render := by
  obtain ⟨init, last, rfl⟩ : ∃ init last, labels = init ++ [last] :=
    ⟨_, _, (List.dropLast_concat_getLast hne).symm⟩
  have htext : presentation (init ++ [last]) =
      (terminated (init ++ [last])).flatMap render := by
    rw [flatMap_terminated]
    cases init <;> rfl
  have hdot : (terminated (init ++ [last])).flatMap render =
      (init.flatMap (fun l => l.flatMap escapeByte ++ ascii ".") ++ last.flatMap escapeByte) ++
        ascii "." := by
    rw [flatMap_terminated, List.flatMap_append, List.flatMap_singleton, List.append_assoc]
  rw [htext, hdot, trimDot_dot]

namespace Hostname

variable (h : Hostname)

/-- Nothing in a hostname is escaped. -/
theorem text_dot : h.text ++ ascii "." = (terminated h.labels).flatMap render := by
  rw [flatMap_terminated, text]
  have hne := h.labels_ne
  have hplain := h.plain
  generalize h.labels = labels at hne hplain
  induction labels with
  | nil => exact absurd rfl hne
  | cons l rest ih =>
      have hl : l.flatMap escapeByte = l := by
        have hbytes := List.flatMap_congr (hplain l List.mem_cons_self)
        rw [hbytes]
        exact List.flatMap_singleton' l
      cases rest with
      | nil => simp [hl]
      | cons l' rest =>
          have hrest := ih (by simp) fun x hx => hplain x (List.mem_cons_of_mem l hx)
          rw [List.flatMap_cons, ← hrest, hl, List.intercalate_cons_cons, List.append_assoc,
            List.append_assoc]

theorem backslash_notMem : (0x5c : UInt8) ∉ (terminated h.labels).flatMap render := by
  rw [flatMap_terminated, List.mem_flatMap]
  rintro ⟨l, hl, hmem⟩
  rcases List.mem_append.mp hmem with hmem | hmem
  · obtain ⟨b, hb, hbyte⟩ := List.mem_flatMap.mp hmem
    have hplain := h.plain l hl b hb
    rw [hplain, List.mem_singleton] at hbyte
    subst hbyte
    exact absurd hplain (by decide)
  · exact absurd hmem (by decide)

/-- A hostname has one reading as symbols. -/
theorem symbols_unique {symbols : List (Option UInt8)}
    (heq : symbols.flatMap render = (terminated h.labels).flatMap render) :
    symbols = terminated h.labels := by
  have hno := h.backslash_notMem
  rw [← render_plain hno, ← heq, render_plain (heq ▸ hno)]

end Hostname

/-! ## The suffix test -/

/-- The entry's labels match up to a dot inside a label of the name. -/
def EscapedDot (h : Hostname) (labels : List GoString) : Prop :=
  ∃ front l r rest, labels = front ++ (l ++ 0x2e :: r) :: rest ∧ h.labels = r :: rest

/-- A dot before the symbols of the entry is all the test asks for. -/
theorem suffix_of_symbols {labels : List GoString} (hne : labels ≠ []) (h : Hostname)
    {front : List (Option UInt8)} {s : Option UInt8} (hs : s = none ∨ s = some 0x2e)
    (hsplit : terminated labels = front ++ s :: terminated h.labels) :
    ascii "." ++ h.text <:+ trimDot (presentation labels) := by
  obtain ⟨pre, hpre⟩ : ∃ pre, render s = pre ++ ascii "." := by
    rcases hs with rfl | rfl
    · exact ⟨[], rfl⟩
    · exact ⟨[0x5c], rfl⟩
  refine ⟨front.flatMap render ++ pre, (List.append_left_inj (ascii ".")).mp ?_⟩
  rw [trimDot_presentation hne, hsplit, List.flatMap_append, List.flatMap_cons, hpre, ← h.text_dot]
  simp only [List.append_assoc]

/-- The string test for one entry, on symbols. -/
theorem test_iff {labels : List GoString} (hne : labels ≠ []) (h : Hostname) :
    (trimDot (presentation labels) = h.text ∨
      ascii "." ++ h.text <:+ trimDot (presentation labels)) ↔
    h.labels <:+ labels ∨ EscapedDot h labels := by
  have htext := trimDot_presentation hne
  have hhost := h.text_dot
  constructor
  · rintro (heq | ⟨front, hfront⟩)
    · left
      have hsym : terminated labels = terminated h.labels := by
        refine h.symbols_unique ?_
        rw [← htext, ← hhost, heq]
      rw [terminated_injective hsym]
    · have hdot : (terminated labels).flatMap render =
          front ++ 0x2e :: (terminated h.labels).flatMap render := by
        rw [← htext, ← hfront, ← hhost, List.append_assoc, List.append_assoc]
        rfl
      obtain ⟨a, s, b, hsplit, hs, hb⟩ := render_split hdot
      obtain rfl := h.symbols_unique hb
      -- the dot ends a label, or is an escaped one inside of it
      rcases hs with rfl | rfl
      · obtain ⟨front', back, rfl, _, hback⟩ := terminated_split_none hsplit
        rw [← terminated_injective hback]
        exact .inl (List.suffix_append front' back)
      · obtain ⟨front', l, r, rest, rfl, hrest⟩ := terminated_split_some hsplit
        exact .inr ⟨front', l, r, rest, rfl, terminated_injective hrest⟩
  · rintro (⟨front, rfl⟩ | ⟨front, l, r, rest, rfl, hlabels⟩)
    · rcases List.eq_nil_or_concat front with rfl | ⟨front, last, rfl⟩
      · left
        rw [List.nil_append] at htext ⊢
        exact List.append_cancel_right (htext.trans hhost.symm)
      · right
        refine @suffix_of_symbols _ hne h (terminated front ++ last.map some) _ (.inl rfl) ?_
        simp [terminated_append, terminated_cons]
    · right
      refine @suffix_of_symbols _ hne h (terminated front ++ l.map some) _ (.inr rfl) ?_
      simp [hlabels, terminated_append, terminated_cons]

theorem Hostname.text_ne (h : Hostname) : h.text ≠ [] := by
  intro hnil
  have hhost := h.text_dot
  obtain ⟨l, rest, hlabels⟩ := List.exists_cons_of_ne_nil h.labels_ne
  have hl : l ≠ [] := h.label_ne l (by simp [hlabels])
  have hsym : [none] = terminated h.labels := by
    refine h.symbols_unique ?_
    rw [← hhost, hnil]
    rfl
  rw [hlabels, terminated_cons] at hsym
  cases l with
  | nil => exact hl rfl
  | cons b l => simp at hsym

/-- The service that watches the given hostnames. -/
def watching (hosts : List Hostname) : Service := ⟨hosts.map Hostname.text⟩

theorem isAIDomain_watching (hosts : List Hostname) (name : GoString) :
    (watching hosts).isAIDomain name = true ↔
      ∃ h ∈ hosts, name = h.text ∨ ascii "." ++ h.text <:+ name := by
  simp [watching, Service.isAIDomain, hasSuffix]

/-- What the test accepts: names below an entry, and names that only look so
because of an escaped dot. -/
theorem isAIDomain_presentation (hosts : List Hostname) (labels : List GoString) :
    (watching hosts).isAIDomain (trimDot (presentation labels)) = true ↔
      ∃ h ∈ hosts, h.labels <:+ labels ∨ EscapedDot h labels := by
  rw [isAIDomain_watching]
  refine exists_congr fun h => and_congr_right fun _ => ?_
  by_cases hne : labels = []
  · -- the root: its text is empty and no entry is
    subst hne
    have hroot : trimDot (presentation []) = [] := by decide
    rw [hroot]
    constructor
    · rintro (heq | hsuf)
      · exact absurd heq.symm h.text_ne
      · have := List.suffix_nil.mp hsuf
        exact absurd this (by simp [ascii])
    · rintro (hsuf | ⟨front, l, r, rest, heq, _⟩)
      · exact absurd (List.suffix_nil.mp hsuf) h.labels_ne
      · simp at heq
  · exact test_iff hne h

/-- **Label boundaries.** For every name and every list of plain hostnames, the
string test agrees with the label test exactly when an entry's labels do end the
name, or none matches up to a dot inside a label. -/
theorem label_boundary_iff (hosts : List Hostname) (name : DnsName) :
    ((watching hosts).isAIDomain (trimDot (presentation name.labels)) = true ↔
      ∃ h ∈ hosts, h.labels <:+ name.labels) ↔
    (∃ h ∈ hosts, h.labels <:+ name.labels) ∨ ¬ ∃ h ∈ hosts, EscapedDot h name.labels := by
  rw [isAIDomain_presentation]
  have hor : (∃ h ∈ hosts, h.labels <:+ name.labels ∨ EscapedDot h name.labels) ↔
      (∃ h ∈ hosts, h.labels <:+ name.labels) ∨ ∃ h ∈ hosts, EscapedDot h name.labels := by
    simp only [and_or_left, exists_or]
  rw [hor, or_iff_left_iff_imp, imp_iff_or_not]

def openaiCom : Hostname :=
  ⟨[ascii "openai", ascii "com"], by decide, by decide, by decide +kernel⟩

/-- A name of two labels, the first with a dot in it. -/
def evilOpenai : DnsName :=
  ⟨[ascii "evil.openai", ascii "com"], by decide, by decide⟩

/-- The name below `com` passes for one below `openai.com`. -/
theorem escaped_dot_matches :
    (watching [openaiCom]).isAIDomain (trimDot (presentation evilOpenai.labels)) = true ∧
      ¬ ∃ h ∈ [openaiCom], h.labels <:+ evilOpenai.labels := by
  refine ⟨(isAIDomain_presentation _ _).mpr ⟨openaiCom, by simp, .inr ?_⟩, ?_⟩
  · exact ⟨[], ascii "evil", ascii "openai", [ascii "com"], rfl, rfl⟩
  · rintro ⟨h, hmem, hsuf⟩
    obtain rfl := List.mem_singleton.mp hmem
    exact absurd hsuf (by decide)

end AiInterceptor.Theorems.LabelBoundary
