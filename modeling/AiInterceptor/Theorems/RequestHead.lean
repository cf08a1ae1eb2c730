import AiInterceptor.Logic.Trim
import AiInterceptor.Theorems.HostHeader

/-!
# Request heads

The grammar of an HTTP/1.1 request head, as a writer: the request line, then the
fields, each with any blanks around its value, then an empty line. Every CR LF of
it starts a line, so that the search for `"\r\nhost: "` looks at the start of every
line and at nothing else. It finds the Host field if and only if the first byte
after the colon is a space (`host_found_iff`).
-/

namespace AiInterceptor.Theorems.RequestHead

open Lib Go Proxy HostHeader

/-! ## The grammar -/

def crlf : List UInt8 := [0x0D, 0x0A]

/-- A byte within a line. -/
def InLine (c : UInt8) : Prop := c.toNat < runeSelf ∧ c ≠ 0x0D ∧ c ≠ 0x0A

instance (c : UInt8) : Decidable (InLine c) := inferInstanceAs (Decidable (_ ∧ _))

def Line (s : List UInt8) : Prop := ∀ c ∈ s, InLine c

instance (s : List UInt8) : Decidable (Line s) := List.decidableBAll _ s

/-- A field name: visible characters other than the colon. -/
def Name (s : List UInt8) : Prop := ∀ c ∈ s, 0x21 ≤ c.toNat ∧ c.toNat ≤ 0x7E ∧ c ≠ colon

instance (s : List UInt8) : Decidable (Name s) := List.decidableBAll _ s

/-- Optional whitespace: spaces and tabs. -/
def Ows (s : List UInt8) : Prop := ∀ c ∈ s, c = 0x20 ∨ c = 0x09

instance (s : List UInt8) : Decidable (Ows s) := List.decidableBAll _ s

/-- One header field. The value is what stands between the blanks. -/
structure Field where
  name : GoString
  lead : GoString
  value : GoString
  trail : GoString
  name_visible : Name name
  lead_ows : Ows lead
  value_inLine : Line value
  value_trimmed : Trimmed value
  trail_ows : Ows trail

namespace Field

/-- Everything after the colon. -/
def content (f : Field) : List UInt8 := f.lead ++ f.value ++ f.trail

def line (f : Field) : List UInt8 := f.name ++ colon :: f.content

def isHost (f : Field) : Prop := f.name.map lowerByte = ascii "host"

instance (f : Field) : Decidable f.isHost := inferInstanceAs (Decidable (_ = _))

end Field

/-- A request head with exactly one Host field. -/
structure Head where
  requestLine : List UInt8
  before : List Field
  host : Field
  after : List Field
  requestLine_inLine : Line requestLine
  host_isHost : host.isHost
  others : ∀ f ∈ before ++ after, ¬ f.isHost

namespace Head

def fields (h : Head) : List Field := h.before ++ h.host :: h.after

def bytes (h : Head) : List UInt8 :=
  h.requestLine ++ crlf ++ h.fields.flatMap (fun f => f.line ++ crlf) ++ crlf

end Head

/-! ## Lines -/

/-- Lines, each with the line break in front of it. -/
def broken (lines : List (List UInt8)) : List UInt8 := lines.flatMap (crlf ++ ·)

@[simp] theorem broken_nil : broken [] = [] := rfl

@[simp] theorem broken_cons (l : List UInt8) (lines : List (List UInt8)) :
    broken (l :: lines) = crlf ++ l ++ broken lines := List.flatMap_cons

theorem broken_append (a b : List (List UInt8)) : broken (a ++ b) = broken a ++ broken b :=
  List.flatMap_append

/-- The empty line ends the last field and the head. -/
theorem fields_broken (fs : List Field) :
    crlf ++ fs.flatMap (fun f => f.line ++ crlf) = broken (fs.map Field.line) ++ crlf := by
  induction fs with
  | nil => rfl
  | cons f fs ih =>
      rw [List.flatMap_cons, List.map_cons, broken_cons, List.append_assoc, List.append_assoc,
        List.append_assoc, ih]

theorem Head.bytes_eq (h : Head) :
    h.bytes = h.requestLine ++ broken (h.fields.map Field.line ++ [[], []]) := by
  rw [Head.bytes, List.append_assoc, List.append_assoc, ← List.append_assoc crlf, fields_broken,
    broken_append, List.append_assoc]
  rfl

section Search

variable {key : List UInt8}

/-- Text of one line that starts several lines starts the first of them. -/
theorem prefix_of_line (hkey : 0x0D ∉ key) {l : List UInt8} {lines : List (List UInt8)}
    (h : key <+: l ++ broken lines) : key <+: l := by
  rcases List.prefix_or_prefix_of_prefix h (List.prefix_append l (broken lines)) with hp | hp
  · exact hp
  · obtain ⟨t, rfl⟩ := hp
    rw [List.prefix_append_right_inj] at h
    cases t with
    | nil => simp
    | cons c t =>
        -- the line break would be part of the key
        cases lines with
        | nil => simp at h
        | cons l' lines =>
            obtain ⟨rfl, _⟩ := List.cons_prefix_cons.mp h
            simp at hkey

/-- Lines that do not start with the key are passed over. -/
theorem indexOf_broken (hkey : 0x0D ∉ key) {lines : List (List UInt8)}
    (hlines : ∀ l ∈ lines, 0x0D ∉ l ∧ ¬ key <+: l) (rest : List (List UInt8)) :
    indexOf (broken (lines ++ rest)) (0x0D :: 0x0A :: key) =
      (indexOf (broken rest) (0x0D :: 0x0A :: key)).map (· + (broken lines).length) := by
  induction lines with
  | nil => simp
  | cons l lines ih =>
      obtain ⟨hcr, hno⟩ := hlines l List.mem_cons_self
      -- it does not start at the line's break, nor inside the line, which has no CR
      have hstart : ¬ 0x0D :: 0x0A :: key <+: 0x0D :: (0x0A :: l ++ broken (lines ++ rest)) := by
        rw [List.cons_prefix_cons, List.cons_append, List.cons_prefix_cons]
        exact fun hp => hno (prefix_of_line hkey hp.2.2)
      have hskip : 0x0D ∉ (0x0A :: l : List UInt8) := by simp [hcr]
      have hlength : (broken (l :: lines)).length = (broken lines).length + (l.length + 2) := by
        simp [crlf]
        omega
      show indexOf (0x0D :: (0x0A :: l ++ broken (lines ++ rest))) _ = _
      rw [indexOf_cons hstart, indexOf_append hskip,
        ih fun l hl => hlines l (List.mem_cons_of_mem _ hl), Option.map_map, Option.map_map,
        hlength]
      congr 1
      funext i
      simp only [Function.comp_apply, List.length_cons]
      omega

/-- A line that starts with the key is found at its line break. -/
theorem indexOf_broken_hit {l : List UInt8} (h : key <+: l) (lines : List (List UInt8)) :
    indexOf (broken (l :: lines)) (0x0D :: 0x0A :: key) = some 0 := by
  apply indexOf_zero
  show 0x0D :: 0x0A :: key <+: 0x0D :: 0x0A :: (l ++ broken lines)
  rw [List.cons_prefix_cons, List.cons_prefix_cons]
  exact ⟨rfl, rfl, h.trans (List.prefix_append l _)⟩

end Search

/-! ## Field lines -/

/-- What follows a separator that stands in both texts for the first time. -/
theorem prefix_after {c : UInt8} {a b x y : List UInt8} (ha : c ∉ a) (hb : c ∉ b)
    (h : a ++ c :: x <+: b ++ c :: y) : a = b ∧ x <+: y := by
  induction a generalizing b with
  | nil =>
      cases b with
      | nil => exact ⟨rfl, (List.cons_prefix_cons.mp h).2⟩
      | cons d b =>
          obtain ⟨rfl, _⟩ := List.cons_prefix_cons.mp h
          exact absurd List.mem_cons_self hb
  | cons d a ih =>
      rw [List.mem_cons, not_or] at ha
      cases b with
      | nil => exact absurd (List.cons_prefix_cons.mp h).1.symm ha.1
      | cons e b =>
          rw [List.mem_cons, not_or] at hb
          obtain ⟨rfl, htail⟩ := List.cons_prefix_cons.mp h
          obtain ⟨rfl, hxy⟩ := ih ha.2 hb.2 htail
          exact ⟨rfl, hxy⟩

/-- `"host: "`. -/
def hostKey : List UInt8 := ascii "host" ++ colon :: [0x20]

theorem needle_eq : needle = 0x0D :: 0x0A :: hostKey := by decide

theorem hostKey_noCr : 0x0D ∉ hostKey := by decide

namespace Field

variable (f : Field)

theorem name_noColon : colon ∉ f.name := fun hmem => (f.name_visible colon hmem).2.2 rfl

theorem name_inLine : Line f.name := by
  intro c hc
  obtain ⟨hlo, hhi, _⟩ := f.name_visible c hc
  refine ⟨by rw [runeSelf]; omega, ?_, ?_⟩
  · rintro rfl
    exact absurd hlo (by decide)
  · rintro rfl
    exact absurd hlo (by decide)

theorem content_inLine : Line f.content := by
  have hows : ∀ s : List UInt8, Ows s → Line s := by
    intro s hs c hc
    rcases hs c hc with rfl | rfl <;> decide
  intro c hc
  rw [content, List.mem_append, List.mem_append] at hc
  rcases hc with (hc | hc) | hc
  · exact hows _ f.lead_ows c hc
  · exact f.value_inLine c hc
  · exact hows _ f.trail_ows c hc

theorem line_inLine : Line f.line := by
  intro c hc
  rw [line, List.mem_append, List.mem_cons] at hc
  rcases hc with hc | rfl | hc
  · exact f.name_inLine c hc
  · decide
  · exact f.content_inLine c hc

theorem content_trim : trimSpace f.content = f.value := by
  have hblank : ∀ s : List UInt8, Ows s → ∀ c ∈ s, Blank c := by
    intro s hs c hc
    rcases hs c hc with rfl | rfl <;> exact ⟨by decide, by decide⟩
  exact trimSpace_blanks (hblank _ f.lead_ows) f.value_trimmed (hblank _ f.trail_ows)

/-- A content that starts with a space, without it. -/
theorem content_space (h : f.content.head? = some 0x20) :
    ∃ content, f.content = 0x20 :: content ∧ 0x0D ∉ content ∧ trimSpace content = f.value := by
  cases hc : f.content with
  | nil => simp [hc] at h
  | cons c content =>
      rw [hc, List.head?_cons, Option.some.injEq] at h
      subst h
      refine ⟨content, rfl, ?_, ?_⟩
      · intro hmem
        have hin : 0x0D ∈ f.content := by
          rw [hc]
          exact List.mem_cons_of_mem _ hmem
        exact (f.content_inLine _ hin).2.1 rfl
      · rw [← f.content_trim, hc, trimSpace, trimSpace, trimLeftSpace_blank (by decide) (by decide)]

/-- The search stops at a field exactly when it is the Host field and its content
starts with a space. -/
theorem hostKey_prefix_iff :
    hostKey <+: f.line.map lowerByte ↔ f.isHost ∧ f.content.head? = some 0x20 := by
  have hlower : f.line.map lowerByte =
      f.name.map lowerByte ++ colon :: f.content.map lowerByte := by
    rw [line, List.map_append, List.map_cons]
    rfl
  -- nothing but a space is a space in lower case
  have hspace : [0x20] <+: f.content.map lowerByte ↔ f.content.head? = some 0x20 := by
    cases f.content with
    | nil => simp
    | cons c rest =>
        rw [List.map_cons, List.cons_prefix_cons, List.head?_cons, Option.some.injEq]
        constructor
        · intro h
          exact lowerByte_eq (by decide) h.1.symm
        · rintro rfl
          exact ⟨rfl, List.nil_prefix⟩
  rw [hlower, ← hspace]
  constructor
  · intro h
    obtain ⟨hname, hrest⟩ := prefix_after (by decide) (notMem_lower (by decide) f.name_noColon) h
    exact ⟨hname.symm, hrest⟩
  · rintro ⟨hname, hrest⟩
    have hname : f.name.map lowerByte = ascii "host" := hname
    rw [hname, hostKey, List.prefix_append_right_inj, List.cons_prefix_cons]
    exact ⟨rfl, hrest⟩

end Field

/-! ## The search in a head -/

theorem broken_lower (lines : List (List UInt8)) :
    (broken lines).map lowerByte = broken (lines.map (·.map lowerByte)) := by
  induction lines with
  | nil => rfl
  | cons l lines ih =>
      rw [broken_cons, List.map_append, List.map_append, ih, List.map_cons, broken_cons]
      rfl

namespace Head

variable (h : Head)

theorem bytes_ascii : ∀ c ∈ h.bytes, c.toNat < runeSelf := by
  have hcrlf : ∀ c ∈ crlf, c.toNat < runeSelf := by
    intro c hc
    simp only [crlf, List.mem_cons, List.not_mem_nil, or_false] at hc
    rcases hc with rfl | rfl <;> decide
  intro c hc
  rw [bytes, List.mem_append, List.mem_append, List.mem_append, List.mem_flatMap] at hc
  rcases hc with ((hc | hc) | ⟨f, _, hc⟩) | hc
  · exact (h.requestLine_inLine c hc).1
  · exact hcrlf c hc
  · rcases List.mem_append.mp hc with hc | hc
    · exact (f.line_inLine c hc).1
    · exact hcrlf c hc
  · exact hcrlf c hc

/-- The lines in front of the Host field. -/
def front (h : Head) : List UInt8 := h.requestLine ++ broken (h.before.map Field.line)

theorem bytes_front : h.bytes = h.front ++ broken (h.host.line ::
    (h.after.map Field.line ++ [[], []])) := by
  rw [bytes_eq, front, List.append_assoc, ← broken_append, fields, List.map_append,
    List.map_cons, List.append_assoc, List.cons_append]

/-- A line of another field is passed over. -/
theorem other_passed {fs : List Field} (hfs : ∀ f ∈ fs, ¬ f.isHost) :
    ∀ l ∈ (fs.map Field.line).map (·.map lowerByte), 0x0D ∉ l ∧ ¬ hostKey <+: l := by
  intro l hl
  rw [List.map_map] at hl
  obtain ⟨f, hf, rfl⟩ := List.mem_map.mp hl
  refine ⟨notMem_lower (by decide) fun hcr => (f.line_inLine _ hcr).2.1 rfl, ?_⟩
  show ¬ hostKey <+: f.line.map lowerByte
  rw [f.hostKey_prefix_iff]
  exact fun hhost => hfs f hf hhost.1

/-- The search reaches the Host field. -/
theorem hostAt_front :
    hostAt h.bytes = (indexOf (broken ((h.host.line ::
      (h.after.map Field.line ++ [[], []])).map (·.map lowerByte))) needle).map
        (· + h.front.length) := by
  have hline : 0x0D ∉ h.requestLine.map lowerByte :=
    notMem_lower (by decide) fun hcr => (h.requestLine_inLine _ hcr).2.1 rfl
  have hbefore : ∀ f ∈ h.before, ¬ f.isHost :=
    fun f hf => h.others f (List.mem_append_left _ hf)
  have hlength : (broken ((h.before.map Field.line).map (·.map lowerByte))).length =
      (broken (h.before.map Field.line)).length := by
    rw [← broken_lower, List.length_map]
  rw [hostAt, bytes_front, front, List.append_assoc, ← broken_append, List.map_append,
    broken_lower, List.map_append, needle_eq, indexOf_append hline,
    indexOf_broken hostKey_noCr (other_passed hbefore), Option.map_map, hlength, List.length_append,
    List.length_map]
  congr 1
  funext i
  simp only [Function.comp_apply]
  omega

/-- What follows the needle, once the search has stopped at the Host field. -/
theorem drop_needle {content : List UInt8} (hcontent : h.host.content = 0x20 :: content) :
    h.bytes.drop (h.front.length + needle.length) =
      content ++ broken (h.after.map Field.line ++ [[], []]) := by
  have hname : h.host.name.length = 4 := by
    have hlower : h.host.name.map lowerByte = ascii "host" := h.host_isHost
    rw [← List.length_map lowerByte, hlower]
    rfl
  have hlen : needle.length = (crlf ++ h.host.name ++ [colon, 0x20]).length := by
    simp [hname, crlf, needle, ascii]
  have hsplit : crlf ++ (h.host.name ++ colon :: 0x20 :: content) ++
      broken (h.after.map Field.line ++ [[], []]) =
      crlf ++ h.host.name ++ [colon, 0x20] ++
        (content ++ broken (h.after.map Field.line ++ [[], []])) := by simp
  rw [bytes_front, List.drop_length_add_append, broken_cons, Field.line, hcontent, hlen, hsplit,
    List.drop_left]

/-- A space after the colon: the value is cut out. -/
theorem hostField_space (hspace : h.host.content.head? = some 0x20) :
    hostField h.bytes = h.host.value := by
  have hkey : hostKey <+: h.host.line.map lowerByte :=
    h.host.hostKey_prefix_iff.mpr ⟨h.host_isHost, hspace⟩
  have hat : hostAt h.bytes = some h.front.length := by
    rw [hostAt_front, needle_eq, List.map_cons, indexOf_broken_hit hkey, Option.map_some,
      Nat.zero_add]
  obtain ⟨content, hcontent, hcr, htrim⟩ := h.host.content_space hspace
  obtain ⟨rest, hrest⟩ : ∃ rest, broken (h.after.map Field.line ++ [[], []]) = 0x0D :: rest := by
    cases h.after with
    | nil => exact ⟨_, rfl⟩
    | cons f fs => exact ⟨_, rfl⟩
  have hdrop := h.drop_needle hcontent
  rw [hrest] at hdrop
  rw [hostField, hat, ← htrim]
  exact fieldAt_line hdrop hcr

/-- No space after the colon: nothing is found. -/
theorem hostField_tight (hspace : h.host.content.head? ≠ some 0x20) : hostField h.bytes = [] := by
  have hhost : 0x0D ∉ h.host.line.map lowerByte ∧ ¬ hostKey <+: h.host.line.map lowerByte := by
    refine ⟨notMem_lower (by decide) fun hcr => (h.host.line_inLine _ hcr).2.1 rfl, ?_⟩
    rw [h.host.hostKey_prefix_iff]
    exact fun hkey => hspace hkey.2
  have hafter := other_passed fun f hf => h.others f (List.mem_append_right h.before hf)
  have hempty : ¬ hostKey <+: [] := by decide
  -- no line from the Host field on starts with the key
  have hlines : ∀ l ∈ (h.host.line :: (h.after.map Field.line ++ [[], []])).map (·.map lowerByte),
      0x0D ∉ l ∧ ¬ hostKey <+: l := by
    intro l hl
    rw [List.map_cons, List.mem_cons, List.map_append, List.mem_append] at hl
    rcases hl with rfl | hl | hl
    · exact hhost
    · exact hafter l hl
    · obtain rfl : l = [] := by simpa using hl
      exact ⟨by simp, hempty⟩
  have hnone := indexOf_broken hostKey_noCr hlines []
  have hat : hostAt h.bytes = none := by
    rw [hostAt_front, needle_eq, ← List.append_nil (List.map _ _), hnone]
    rfl
  rw [hostField, hat]

end Head

/-- In front of a value the content starts with a space exactly when the blanks do. -/
theorem Field.content_head {f : Field} (h : f.value ≠ []) :
    f.content.head? = some 0x20 ↔ f.lead.head? = some 0x20 := by
  rw [Field.content, List.append_assoc]
  cases hlead : f.lead with
  | cons c lead => rfl
  | nil =>
      rw [List.nil_append, List.head?_append_of_ne_nil _ h]
      refine iff_of_false ?_ (by simp)
      intro hhead
      have hblank := (f.value_trimmed.first _ hhead).2
      exact absurd hblank (by decide)

/-- **The Host field is found exactly when a space follows its colon**, or there is
nothing to find in it. A value that follows the colon at once, or after a tab, is
missed. -/
theorem host_found_iff (lowerRune : Nat → Nat) (h : Head) :
    parseHostHeader lowerRune h.bytes = some h.host.value ↔
      h.host.value = [] ∨ h.host.lead.head? = some 0x20 := by
  rw [parseHostHeader_ascii h.bytes_ascii, Option.some.injEq]
  by_cases hempty : h.host.value = []
  · refine iff_of_true ?_ (.inl hempty)
    by_cases hspace : h.host.content.head? = some 0x20
    · exact h.hostField_space hspace
    · rw [h.hostField_tight hspace, hempty]
  · by_cases hspace : h.host.content.head? = some 0x20
    · exact iff_of_true (h.hostField_space hspace)
        (.inr ((Field.content_head hempty).mp hspace))
    · refine iff_of_false ?_ ?_
      · rw [h.hostField_tight hspace]
        exact fun heq => hempty heq.symm
      · rw [← Field.content_head hempty]
        exact not_or_intro hempty hspace

/-- A Host field without a blank. -/
def tightField : Field where
  name := ascii "Host"
  lead := []
  value := ascii "a"
  trail := []
  name_visible := by decide
  lead_ows := by decide
  value_inLine := by decide
  value_trimmed := ⟨by simp [ascii]; decide, by simp [ascii]; decide⟩
  trail_ows := by decide

def tightHead : Head := ⟨ascii "GET / HTTP/1.1", [], tightField, [], by decide, by decide, by simp⟩

theorem tight_host_missed :
    tightHead.bytes = ascii "GET / HTTP/1.1" ++ crlf ++ ascii "Host:a" ++ crlf ++ crlf ∧
      parseHostHeader latinLower tightHead.bytes = some [] ∧
      tightHead.host.value = ascii "a" := by
  refine ⟨by decide, ?_, rfl⟩
  rw [parseHostHeader_ascii tightHead.bytes_ascii]
  exact congrArg some (tightHead.hostField_tight (by decide))

end AiInterceptor.Theorems.RequestHead
