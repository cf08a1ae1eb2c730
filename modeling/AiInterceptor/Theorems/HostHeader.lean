import AiInterceptor.Logic.HostPort
import AiInterceptor.Logic.Runes
import AiInterceptor.Proxy.Handle

/-!
# The Host field of an HTTP request

`parseHostHeader` searches a lower-cased copy of what was read and cuts the
original at the index found there. The two agree on which line is the Host
field, since no rune beyond ASCII is lowered to a byte of the needle; they need
not agree on where it stands. Lowering re-encodes every rune, and an invalid byte
takes three bytes afterwards, so the cut moves by as much as the text in front of
the field grows or shrinks (`parseHostHeader_found`), past the end of the slice if
little follows.
-/

namespace AiInterceptor.Theorems.HostHeader

open Lib Go Proxy

/-! ## The Host field -/

/-- The line from `start` on, trimmed: up to the next CR, or the next LF when there
is no CR, or the end. -/
def fieldAt (data : List UInt8) (start : Nat) : GoString :=
  let rest := data.drop start
  trimSpace (rest.take (((indexByte rest 0x0D).or (indexByte rest 0x0A)).getD rest.length))

/-- Where the first `"\r\nhost: "` in any letter case stands. -/
def hostAt (data : List UInt8) : Option Nat := indexOf (data.map lowerByte) needle

def hostField (data : List UInt8) : GoString :=
  match hostAt data with
  | none => []
  | some i => fieldAt data (i + needle.length)

/-- The field from `start` to the next CR. -/
theorem fieldAt_line {data text rest : List UInt8} {start : Nat}
    (hdrop : data.drop start = text ++ 0x0D :: rest) (hcr : 0x0D ∉ text) :
    fieldAt data start = trimSpace text := by
  rw [fieldAt, hdrop, indexByte_at hcr, Option.some_or, Option.getD_some, List.take_left]

/-! ## Lowering -/

section Lowering

variable (lowerRune : Nat → Nat)

def lowered (r : Nat) : Nat := if r < runeSelf then asciiLower r else lowerRune r

/-- How long the part in front of position `i` is in the lower-cased copy. -/
def loweredLength (data : List UInt8) (i : Nat) : Nat := (toLower lowerRune (data.take i)).length

/-- The search and the cuts stay in range, and yield the Host field. -/
def Faithful (data : List UInt8) : Prop := parseHostHeader lowerRune data = some (hostField data)

/-- Only an ASCII letter is lowered to a byte of the text. In Unicode the two
other runes that are lowered to ASCII are U+0130, to `i`, and U+212A, to `k`. -/
def AsciiOnly (text : List UInt8) : Prop :=
  ∀ c ∈ text, c.toNat < runeSelf ∧ ∀ r, runeSelf ≤ r → lowerRune r ≠ c.toNat

theorem asciiLower_lt {b : Nat} (h : b < 0x80) : asciiLower b < 0x80 := by
  unfold asciiLower
  split <;> omega

theorem lowerByte_high {b : UInt8} (h : ¬ b.toNat < 0x80) : lowerByte b = b := by
  have hsame : asciiLower b.toNat = b.toNat := if_neg (by omega)
  rw [lowerByte, hsame, UInt8.ofNat_toNat]

theorem encodeRune_lowered_ascii {b : UInt8} (h : b.toNat < 0x80) :
    encodeRune (lowered lowerRune b.toNat) = [lowerByte b] := by
  have hlow : lowered lowerRune b.toNat = asciiLower b.toNat := if_pos h
  rw [hlow, encodeRune_ascii (asciiLower_lt h)]
  rfl

theorem mapRunes_lowered_cons {b : UInt8} (h : b.toNat < 0x80) (rest : List UInt8) :
    mapRunes (lowered lowerRune) (b :: rest) =
      lowerByte b :: mapRunes (lowered lowerRune) rest := by
  rw [mapRunes_cons_ascii _ h, encodeRune_lowered_ascii lowerRune h]
  rfl

/-- The fast path for ASCII text computes the same. -/
theorem toLower_eq (s : List UInt8) : toLower lowerRune s = mapRunes (lowered lowerRune) s := by
  unfold toLower
  split
  · rename_i hall
    induction s with
    | nil => simp
    | cons b s ih =>
        rw [List.all_cons, Bool.and_eq_true, decide_eq_true_eq] at hall
        rw [mapRunes_lowered_cons lowerRune hall.1, ← ih hall.2, List.map_cons]
  · rfl

variable {lowerRune}

theorem AsciiOnly.notMem {text : List UInt8} (h : AsciiOnly lowerRune text) {c : UInt8}
    (hc : c ∈ text) {r : Nat} (hr : 0x80 ≤ r) : c ∉ encodeRune (lowered lowerRune r) := by
  intro hmem
  have hlow : lowered lowerRune r = lowerRune r := if_neg (by rw [runeSelf]; omega)
  obtain ⟨hascii, hother⟩ := h c hc
  rw [hlow] at hmem
  by_cases hsmall : lowerRune r < 0x80
  · rw [encodeRune_ascii hsmall, List.mem_singleton] at hmem
    apply hother r hr
    rw [hmem, UInt8.toNat_ofNat']
    omega
  · have := encodeRune_ge (by omega) c hmem
    rw [runeSelf] at hascii
    omega

/-- Text that only ASCII letters are lowered to starts the copy exactly when it
starts the original, up to letter case. -/
theorem prefix_lowered_iff {text : List UInt8} (h : AsciiOnly lowerRune text)
    (data : List UInt8) :
    text <+: mapRunes (lowered lowerRune) data ↔ text <+: data.map lowerByte := by
  induction text generalizing data with
  | nil => simp
  | cons c text ih =>
      have htext : AsciiOnly lowerRune text := fun d hd => h d (List.mem_cons_of_mem c hd)
      cases data with
      | nil => simp
      | cons b rest =>
          by_cases hb : b.toNat < 0x80
          · rw [mapRunes_lowered_cons lowerRune hb, List.map_cons, List.cons_prefix_cons,
              List.cons_prefix_cons, ih htext]
          · -- neither starts with an ASCII byte
            have hcopy : ¬ c :: text <+: mapRunes (lowered lowerRune) (b :: rest) := by
              obtain ⟨tail, t, r, _, _, hr, heq⟩ := mapRunes_cons_high (lowered lowerRune) hb rest
              have hmem := h.notMem List.mem_cons_self hr
              rw [heq]
              cases henc : encodeRune (lowered lowerRune r) with
              | nil => exact absurd henc (encodeRune_ne_nil _)
              | cons d enc =>
                  rw [henc] at hmem
                  rw [List.cons_append, List.cons_prefix_cons]
                  intro hp
                  exact hmem (hp.1 ▸ List.mem_cons_self)
            have horig : ¬ c :: text <+: (b :: rest).map lowerByte := by
              rw [List.map_cons, lowerByte_high hb, List.cons_prefix_cons]
              intro hp
              have := (h c List.mem_cons_self).1
              rw [runeSelf, hp.1] at this
              exact hb this
            exact iff_of_false hcopy horig

/-! ## The search in the copy -/

/-- A position in front of an ASCII byte, once the leading part `hd` is lowered to
`enc`. -/
theorem length_lowered_skip {hd tl enc : List UInt8} {i : Nat} {c : UInt8} {t : List UInt8}
    (hsplit : mapRunes (lowered lowerRune) (hd ++ tl) = enc ++ mapRunes (lowered lowerRune) tl)
    (htl : tl.drop i = c :: t) (hc : c.toNat < 0x80) :
    (mapRunes (lowered lowerRune) ((hd ++ tl).take (i + hd.length))).length =
      (mapRunes (lowered lowerRune) (tl.take i)).length + enc.length := by
  have htake : (hd ++ tl).take (i + hd.length) = hd ++ tl.take i := by
    rw [Nat.add_comm, List.take_length_add_append]
  have hcut : tl = tl.take i ++ c :: t := by rw [← htl, List.take_append_drop]
  -- both sides end in the image of what follows, which cancels
  have hcancel : mapRunes (lowered lowerRune) (hd ++ tl.take i) ++
        mapRunes (lowered lowerRune) (c :: t) =
      enc ++ mapRunes (lowered lowerRune) (tl.take i) ++ mapRunes (lowered lowerRune) (c :: t) := by
    rw [← mapRunes_append_ascii _ _ hc, List.append_assoc, List.append_assoc,
      ← mapRunes_append_ascii _ _ hc, ← hcut, hsplit]
  rw [htake, List.append_cancel_right hcancel, List.length_append, Nat.add_comm]

/-- The byte a match starts at is ASCII in the original. -/
theorem match_ascii {c : UInt8} {sep data : List UInt8} (hc : c.toNat < 0x80) {i : Nat}
    (h : indexOf (data.map lowerByte) (c :: sep) = some i) :
    ∃ d t, data.drop i = d :: t ∧ d.toNat < 0x80 := by
  have hp := indexOf_found h
  rw [← List.map_drop] at hp
  cases hdrop : data.drop i with
  | nil =>
      rw [hdrop] at hp
      simp at hp
  | cons d t =>
      refine ⟨d, t, rfl, ?_⟩
      rw [hdrop, List.map_cons, List.cons_prefix_cons] at hp
      by_contra hd
      rw [lowerByte_high hd] at hp
      rw [hp.1] at hc
      exact hd hc

/-- One rune of the search that starts no match. -/
theorem search_step {c : UInt8} {sep : List UInt8} (hd tl enc : List UInt8) (hc : c.toNat < 0x80)
    (hsplit : mapRunes (lowered lowerRune) (hd ++ tl) = enc ++ mapRunes (lowered lowerRune) tl)
    (hcopy : indexOf (enc ++ mapRunes (lowered lowerRune) tl) (c :: sep) =
      (indexOf (mapRunes (lowered lowerRune) tl) (c :: sep)).map (· + enc.length))
    (horig : indexOf ((hd ++ tl).map lowerByte) (c :: sep) =
      (indexOf (tl.map lowerByte) (c :: sep)).map (· + hd.length))
    (ih : indexOf (mapRunes (lowered lowerRune) tl) (c :: sep) =
      (indexOf (tl.map lowerByte) (c :: sep)).map
        fun i => (mapRunes (lowered lowerRune) (tl.take i)).length) :
    indexOf (mapRunes (lowered lowerRune) (hd ++ tl)) (c :: sep) =
      (indexOf ((hd ++ tl).map lowerByte) (c :: sep)).map
        fun i => (mapRunes (lowered lowerRune) ((hd ++ tl).take i)).length := by
  rw [hsplit, hcopy, horig, ih]
  cases hfound : indexOf (tl.map lowerByte) (c :: sep) with
  | none => rfl
  | some i =>
      obtain ⟨d, t, hdrop, hascii⟩ := match_ascii hc hfound
      simp only [Option.map_some, Option.some.injEq]
      exact (length_lowered_skip hsplit hdrop hascii).symm

/-- The search in the copy finds the first match of the original, at the place the
lowering has moved it to. -/
theorem indexOf_lowered {c : UInt8} {sep : List UInt8} (h : AsciiOnly lowerRune (c :: sep))
    (data : List UInt8) :
    indexOf (mapRunes (lowered lowerRune) data) (c :: sep) =
      (indexOf (data.map lowerByte) (c :: sep)).map
        fun i => (mapRunes (lowered lowerRune) (data.take i)).length := by
  have hc : c.toNat < 0x80 := (h c List.mem_cons_self).1
  generalize hlen : data.length = k
  induction k using Nat.strong_induction_on generalizing data with
  | _ k ih =>
      cases data with
      | nil => simp
      | cons b rest =>
          by_cases hb : b.toNat < 0x80
          · by_cases hp : c :: sep <+: (b :: rest).map lowerByte
            · rw [indexOf_zero hp, indexOf_zero ((prefix_lowered_iff h _).mpr hp)]
              simp
            · have hcopy : ¬ c :: sep <+: mapRunes (lowered lowerRune) (b :: rest) := by
                rwa [prefix_lowered_iff h]
              have hsplit := mapRunes_lowered_cons lowerRune hb rest
              rw [hsplit] at hcopy
              rw [List.map_cons] at hp
              exact search_step [b] rest [lowerByte b] hc hsplit (indexOf_cons hcopy)
                (indexOf_cons hp) (ih rest.length (by rw [← hlen]; simp) rest rfl)
          · obtain ⟨tail, t, r, rfl, htail, hr, hsplit⟩ :=
              mapRunes_cons_high (lowered lowerRune) hb rest
            -- a longer rune: what is searched starts neither in it nor in its lower-case form
            have horig : c ∉ (b :: tail).map lowerByte := by
              intro hmem
              obtain ⟨d, hd, rfl⟩ := List.mem_map.mp hmem
              have hhigh : ¬ d.toNat < 0x80 := by
                rcases List.mem_cons.mp hd with rfl | hd
                · exact hb
                · have := htail d hd
                  omega
              rw [lowerByte_high hhigh] at hc
              exact hhigh hc
            have hskip := indexOf_append horig (t.map lowerByte) sep
            rw [← List.map_append, List.length_map] at hskip
            have hshorter : t.length < k := by
              rw [← hlen, List.length_cons, List.length_append]
              omega
            exact search_step (b :: tail) t _ hc hsplit
              (indexOf_append (h.notMem List.mem_cons_self hr) _ sep) hskip
              (ih t.length hshorter t rfl)

/-! ## The cut -/

theorem slice_to_end (data : List UInt8) {start : Nat} (h : start ≤ data.length) :
    slice data start data.length = some (data.drop start) := by
  rw [slice_eq_some h (Nat.le_refl _), List.take_of_length_le (by rw [List.length_drop])]

theorem search_eq (h : AsciiOnly lowerRune needle) (data : List UInt8) :
    indexOf (toLower lowerRune data) needle = (hostAt data).map (loweredLength lowerRune data) := by
  rw [toLower_eq]
  refine (indexOf_lowered h data).trans ?_
  congr 1
  funext i
  rw [loweredLength, toLower_eq]

/-- The cut, wherever the search has found the needle. -/
theorem parseHostHeader_cut {data : List UInt8} {q : Nat}
    (h : indexOf (toLower lowerRune data) needle = some q) :
    parseHostHeader lowerRune data =
      if q + needle.length ≤ data.length then some (fieldAt data (q + needle.length))
      else none := by
  unfold parseHostHeader
  rw [h]
  dsimp only
  by_cases hin : q + needle.length ≤ data.length
  · rw [if_pos hin, slice_to_end data hin]
    unfold fieldAt
    dsimp only
    cases (indexByte (data.drop (q + needle.length)) 0x0D).or
        (indexByte (data.drop (q + needle.length)) 0x0A) with
    | none => rw [Option.getD_none, List.take_length]
    | some stop => rw [Option.getD_some]
  · rw [if_neg hin, slice, if_neg (by omega)]

theorem parseHostHeader_noMatch {data : List UInt8}
    (h : indexOf (toLower lowerRune data) needle = none) :
    parseHostHeader lowerRune data = some [] := by
  unfold parseHostHeader
  rw [h]

theorem parseHostHeader_absent (h : AsciiOnly lowerRune needle) {data : List UInt8}
    (hat : hostAt data = none) : parseHostHeader lowerRune data = some [] := by
  apply parseHostHeader_noMatch
  rw [search_eq h, hat]
  rfl

/-- What `parseHostHeader` returns: the line at the moved start, if that still lies
in the slice. -/
theorem parseHostHeader_found (h : AsciiOnly lowerRune needle) {data : List UInt8} {i : Nat}
    (hat : hostAt data = some i) :
    parseHostHeader lowerRune data =
      if loweredLength lowerRune data i + needle.length ≤ data.length then
        some (fieldAt data (loweredLength lowerRune data i + needle.length))
      else none := by
  apply parseHostHeader_cut
  rw [search_eq h, hat, Option.map_some]

theorem hostAt_le {data : List UInt8} {i : Nat} (h : hostAt data = some i) :
    i + needle.length ≤ data.length := by
  have hle := (indexOf_found h).length_le
  rw [List.length_drop, List.length_map] at hle
  have : 0 < needle.length := by decide
  omega

/-- On ASCII text the lookup is right, whatever the table says about other runes. -/
theorem parseHostHeader_ascii {data : List UInt8} (h : ∀ c ∈ data, c.toNat < runeSelf) :
    parseHostHeader lowerRune data = some (hostField data) := by
  have hall : (data.all fun b => b.toNat < runeSelf) = true := by
    rw [List.all_eq_true]
    intro b hb
    exact decide_eq_true (h b hb)
  have hsearch : indexOf (toLower lowerRune data) needle = hostAt data := by
    rw [toLower, if_pos hall, hostAt]
  unfold hostField
  cases hat : hostAt data with
  | none => exact parseHostHeader_noMatch (hsearch.trans hat)
  | some i => rw [parseHostHeader_cut (hsearch.trans hat), if_pos (hostAt_le hat)]

/-- **The Host field is found exactly when the text in front of it keeps its length
in lower case**, or the start it is moved to lies in the slice and in a line with
the same text, such as the blanks in front of the value. -/
theorem host_field_iff (hlower : AsciiOnly lowerRune needle) (data : List UInt8) :
    Faithful lowerRune data ↔ ∀ i, hostAt data = some i →
      loweredLength lowerRune data i = i ∨
        (loweredLength lowerRune data i + needle.length ≤ data.length ∧
          fieldAt data (loweredLength lowerRune data i + needle.length) =
            fieldAt data (i + needle.length)) := by
  unfold Faithful hostField
  cases hat : hostAt data with
  | none =>
      rw [parseHostHeader_absent hlower hat]
      simp
  | some i =>
      have hin := hostAt_le hat
      rw [parseHostHeader_found hlower hat]
      simp only [Option.some.injEq, forall_eq']
      constructor
      · intro hfaithful
        split at hfaithful
        · rename_i hmoved
          exact .inr ⟨hmoved, Option.some.inj hfaithful⟩
        · cases hfaithful
      · intro hcond
        rcases hcond with hsame | ⟨hmoved, hfield⟩
        · rw [hsame, if_pos hin]
        · rw [if_pos hmoved, hfield]

end Lowering

/-! ## Two requests -/

/-- Lower case of the letters up to U+00FF. -/
def latinLower (r : Nat) : Nat := if 0xC0 ≤ r ∧ r ≤ 0xDE ∧ r ≠ 0xD7 then r + 0x20 else r

theorem latinLower_ge {r : Nat} (h : 0x80 ≤ r) : 0x80 ≤ latinLower r := by
  unfold latinLower
  split <;> omega

theorem latinLower_asciiOnly : AsciiOnly latinLower needle := by
  intro c hc
  have hascii : c.toNat < 0x80 := by
    have hall : needle.all (fun c => c < 0x80) = true := by decide
    exact UInt8.lt_iff_toNat_lt.mp (of_decide_eq_true (List.all_eq_true.mp hall c hc))
  refine ⟨hascii, ?_⟩
  intro r hr heq
  have := latinLower_ge hr
  omega

/-- A path with U+00C9 in it, whose lower case U+00E9 has two bytes as well. -/
def accented : List UInt8 :=
  [0x2F, 0xC3, 0x89] ++ [0x0D, 0x0A] ++ ascii "Host: a" ++ [0x0D, 0x0A]

theorem accented_keeps_length : loweredLength latinLower accented 3 = 3 := by
  rw [loweredLength, toLower_eq]
  show (mapRunes (lowered latinLower) [0x2F, 0xC3, 0x89]).length = 3
  rw [mapRunes_lowered_cons latinLower (by decide), mapRunes_step _ (by simp)]
  show (lowerByte 0x2F :: (encodeRune 0xE9 ++ mapRunes (lowered latinLower) [])).length = 3
  rw [mapRunes_nil]
  decide

theorem host_field_iff_accented :
    hostAt accented = some 3 ∧ Faithful latinLower accented := by
  have hat : hostAt accented = some 3 := by decide
  refine ⟨hat, (host_field_iff latinLower_asciiOnly accented).mpr ?_⟩
  intro i hi
  rw [hat] at hi
  cases hi
  exact .inl accented_keeps_length

/-- An invalid byte in front of an empty Host field. -/
def invalidFront : List UInt8 := 0xFF :: needle

/-- In lower case the byte takes three, and the cut starts two bytes past the end. -/
theorem invalid_byte_panics :
    parseHostHeader latinLower invalidFront = none ∧ ¬ Faithful latinLower invalidFront := by
  have hat : hostAt invalidFront = some 1 := by decide
  have hlength : loweredLength latinLower invalidFront 1 = 3 := by
    rw [loweredLength, toLower_eq]
    show (mapRunes (lowered latinLower) [0xFF]).length = 3
    rw [mapRunes_step _ (by simp)]
    show (encodeRune 0xFFFD ++ mapRunes (lowered latinLower) []).length = 3
    rw [mapRunes_nil]
    decide
  have hpanic : parseHostHeader latinLower invalidFront = none := by
    rw [parseHostHeader_found latinLower_asciiOnly hat, hlength]
    exact if_neg (by decide)
  refine ⟨hpanic, ?_⟩
  rw [Faithful, hpanic]
  simp

end AiInterceptor.Theorems.HostHeader
