import AiInterceptor.Logic.Handle
import AiInterceptor.Logic.Trim
import AiInterceptor.Theorems.HostHeader

/-!
# Reads and the Host field

`extractHTTPHost` stops at the first read that completes the head or takes it past
its limit, and searches all it has by then. What that is depends on where the last
read ends: at least `leastRead` and at most `mostRead` bytes of the stream, and
everything in between for some way of cutting it. So the host is the same for all of
them exactly when nothing between these two positions changes what the search finds
(`segmentation_iff`).
-/

namespace AiInterceptor.Theorems.Segmentation

open Lib Go Proxy HostHeader

/-! ## The statement -/

/-- The length of the request head, with its empty line; of everything if there is no
empty line. -/
def headLength (stream : List UInt8) : Nat :=
  ((indexOf stream headEnd).map (· + headEnd.length)).getD stream.length

def requestHead (stream : List UInt8) : List UInt8 := stream.take (headLength stream)

section Statement

variable (lowerRune : Nat → Nat) (b : UInt8) (stream : List UInt8)

/-- The host `extractHTTPHost` returns when the reads give these pieces. -/
def hostOf (pieces : List (List UInt8)) : Option GoString :=
  (extractHTTPHost lowerRune (Source.ofPieces pieces) b).1.map Extracted.host

/-- However the stream is cut into reads, the host is the same: the one in the head, or
in as much of it as the limit admits. -/
def Independent : Prop :=
  ∃ host, (∀ pieces, Cut httpReadBufSize stream pieces →
      hostOf lowerRune b pieces = some host) ∧
    parseHostHeader lowerRune ((requestHead (b :: stream)).take httpMaxHeaderBuf) = some host

end Statement

/-- What every way of cutting the stream has brought in when the loop ends. -/
def leastRead (stream : List UInt8) : Nat := min (headLength stream) httpMaxHeaderBuf

/-- What some way of cutting it has brought in. -/
def mostRead (stream : List UInt8) : Nat :=
  min (leastRead stream + (httpReadBufSize - 1)) stream.length

/-- No more than the first `known` bytes of a line decide its text. Either they hold
the CR that ends it, or only blanks follow up to the first line break; and if that is
an LF and a CR follows, where the line is cut then, the part in between adds nothing. -/
def Settled (line : List UInt8) (known : Nat) : Prop :=
  0x0D ∈ line.take known ∨
    ((∀ j c, known ≤ j → 0x0D ∉ line.take (j + 1) → 0x0A ∉ line.take (j + 1) →
        index line j = some c → Blank c) ∧
      ∀ l c, indexByte line 0x0A = some l → indexByte line 0x0D = some c → l < c →
        trimSpace (line.take c) = trimSpace (line.take l))

/-- Where the value starts for `parseHostHeader` when the field stands at `i`. -/
def valueStart (lowerRune : Nat → Nat) (stream : List UInt8) (i : Nat) : Nat :=
  loweredLength lowerRune stream i + needle.length

/-- No read changes what the search finds: the first Host field that any of them can
bring in starts in what all of them bring in, or has nothing in it; its start stays in
what was read; and its line is settled. -/
def Undisturbed (lowerRune : Nat → Nat) (stream : List UInt8) : Prop :=
  ∀ i known, hostAt stream = some i → i + needle.length ≤ mostRead stream →
    known = max (leastRead stream) (i + needle.length) →
    valueStart lowerRune stream i ≤ known ∧
      (leastRead stream < i + needle.length →
        fieldAt (stream.take known) (valueStart lowerRune stream i) = []) ∧
      Settled ((stream.take (mostRead stream)).drop (valueStart lowerRune stream i))
        (known - valueStart lowerRune stream i)

/-! ## The read loop -/

theorem headLength_le (stream : List UInt8) : headLength stream ≤ stream.length := by
  rw [headLength]
  cases hend : indexOf stream headEnd with
  | none => exact Nat.le_refl _
  | some i =>
      have hle := (indexOf_found hend).length_le
      have hpos : 0 < headEnd.length := by decide
      rw [List.length_drop] at hle
      show i + headEnd.length ≤ stream.length
      omega

/-- The loop sees the end of the head once it has read the head. -/
theorem contains_headEnd (stream : List UInt8) (k : Nat) :
    contains (stream.take k) headEnd = true ↔
      (∃ i, indexOf stream headEnd = some i) ∧ headLength stream ≤ k := by
  rw [contains, headLength, headEnd, indexOf_take]
  cases indexOf stream [0x0D, 0x0A, 0x0D, 0x0A] with
  | none => simp
  | some i => simp [Option.isSome_filter]

/-- As long as the loop goes on and the stream does, it has less than `leastRead`. -/
theorem leastRead_missing {stream : List UInt8} {k : Nat} (hk : k < stream.length)
    (hfull : k < httpMaxHeaderBuf) (hend : ¬ contains (stream.take k) headEnd = true) :
    ¬ leastRead stream ≤ k := by
  intro hdone
  apply hend
  rw [contains_headEnd]
  have hhead : headLength stream ≤ k := by
    rw [leastRead] at hdone
    omega
  refine ⟨?_, hhead⟩
  rw [headLength] at hhead
  cases hi : indexOf stream headEnd with
  | some i => exact ⟨i, rfl⟩
  | none =>
      rw [hi, Option.map_none, Option.getD_none] at hhead
      omega

/-- The loop reads up to the first piece that takes it to `leastRead`. -/
theorem httpLoop_reach {stream : List UInt8} {pieces : List (List UInt8)} {k : Nat}
    (hk : k ≤ stream.length) (hcut : Cut httpReadBufSize (stream.drop k) pieces)
    (hend : ¬ contains (stream.take k) headEnd = true) :
    (httpLoop (stream.take k) (Source.ofPieces pieces)).1.1 =
      stream.take (reach (leastRead stream) k pieces) := by
  have hlen : (stream.take k).length = k := by
    rw [List.length_take]
    omega
  -- on the pieces that are left; the head is not complete at the start of a turn
  induction pieces generalizing k with
  | nil =>
      -- the next read returns end of file, or the limit was reached before
      by_cases hfull : k < httpMaxHeaderBuf
      · rw [httpLoop_step (by rw [hlen]; exact hfull) rfl]
        exact List.append_nil _
      · rw [httpLoop_full (by rw [hlen]; exact hfull)]
        rfl
  | cons p pieces ih =>
      by_cases hfull : k < httpMaxHeaderBuf
      · obtain ⟨hpos, hsize⟩ := hcut.sizes p List.mem_cons_self
        have hdrop : stream.drop k = p ++ pieces.flatten := by
          rw [← hcut.whole, List.flatten_cons]
        have hnext : stream.take k ++ p = stream.take (k + p.length) := by
          rw [List.take_add, hdrop, List.take_left]
        have hle : k + p.length ≤ stream.length := by
          have := congrArg List.length hdrop
          rw [List.length_drop, List.length_append] at this
          omega
        have hread : (Source.ofPieces (p :: pieces)).read httpReadBufSize =
            ((p, none), Source.ofPieces pieces) := Source.read_fits _ hsize
        have hmore := leastRead_missing (by omega) hfull hend
        rw [httpLoop_step (by rw [hlen]; exact hfull) hread, hnext, reach_step hmore]
        by_cases hstop : contains (stream.take (k + p.length)) headEnd = true
        · have hhead := ((contains_headEnd stream _).mp hstop).2
          rw [reach_done (by rw [leastRead]; omega)]
          simp only [if_pos hstop]
        · simp only [if_neg hstop]
          have htail := hcut.tail
          rw [List.drop_drop] at htail
          exact ih hle htail hstop (by rw [List.length_take]; omega)
      · rw [httpLoop_full (by rw [hlen]; exact hfull), reach_done (by rw [leastRead]; omega)]

section Loop

variable {b : UInt8} {stream : List UInt8}

/-- The first byte alone is never enough, unless there is nothing else. -/
theorem leastRead_gt : min 2 (1 + stream.length) ≤ leastRead (b :: stream) := by
  have hlen : headEnd.length = 4 := rfl
  have hmax : 2 ≤ httpMaxHeaderBuf := by decide
  rw [leastRead, headLength]
  cases indexOf (b :: stream) headEnd with
  | none =>
      rw [Option.map_none, Option.getD_none, List.length_cons]
      omega
  | some i =>
      rw [Option.map_some, Option.getD_some]
      omega

theorem leastRead_le : leastRead (b :: stream) ≤ 1 + stream.length := by
  have := headLength_le (b :: stream)
  rw [List.length_cons] at this
  rw [leastRead]
  omega

variable (lowerRune : Nat → Nat)

theorem hostOf_eq {pieces : List (List UInt8)} (hcut : Cut httpReadBufSize stream pieces) :
    hostOf lowerRune b pieces = parseHostHeader lowerRune
      ((b :: stream).take (reach (leastRead (b :: stream)) 1 pieces)) := by
  have hend : ¬ contains ((b :: stream).take 1) headEnd = true := by
    rw [contains_headEnd, headLength]
    rintro ⟨⟨i, hi⟩, hle⟩
    rw [hi, Option.map_some, Option.getD_some, headEnd] at hle
    simp only [List.length_cons, List.length_nil] at hle
    omega
  have hloop := @httpLoop_reach (b :: stream) pieces 1 (by simp) hcut hend
  rw [hostOf, extractHTTPHost_host, ← hloop]
  rfl

/-- The host is the same for all ways of cutting the stream exactly when it is the
same in all the search can have. -/
theorem independent_iff :
    Independent lowerRune b stream ↔
      ∃ host, ∀ n, leastRead (b :: stream) ≤ n → n ≤ mostRead (b :: stream) →
        parseHostHeader lowerRune ((b :: stream).take n) = some host := by
  have hleast := @leastRead_le b stream
  have hgt := @leastRead_gt b stream
  have hhead : (requestHead (b :: stream)).take httpMaxHeaderBuf =
      (b :: stream).take (leastRead (b :: stream)) := by
    rw [requestHead, List.take_take, leastRead, Nat.min_comm]
  constructor
  · rintro ⟨host, hall, hleastHost⟩
    refine ⟨host, ?_⟩
    intro n hn hmost
    rw [mostRead, List.length_cons] at hmost
    by_cases hone : n = leastRead (b :: stream)
    · rw [hone, ← hhead, hleastHost]
    · -- beyond the least, some cut of the stream ends there
      obtain ⟨pieces, hcut, hreach⟩ := @exists_cut UInt8 httpReadBufSize (leastRead (b :: stream)) 1
        stream (by omega) n hn (by omega) (by decide) (by omega)
      rw [← hall pieces hcut, hostOf_eq lowerRune hcut, hreach]
  · rintro ⟨host, hall⟩
    refine ⟨host, ?_, ?_⟩
    · intro pieces hcut
      have hone : 1 ≤ leastRead (b :: stream) := by omega
      obtain ⟨hgoal, hsize, htotal⟩ := reach_bounds hcut hone leastRead_le
      rw [hostOf_eq lowerRune hcut]
      apply hall _ hgoal
      rw [mostRead, List.length_cons]
      omega
    · rw [hhead]
      apply hall _ (Nat.le_refl _)
      rw [mostRead, List.length_cons]
      omega

end Loop

/-! ## Lines that grow -/

theorem fieldAt_eq (data : List UInt8) (start : Nat) :
    fieldAt data start = fieldAt (data.drop start) 0 := rfl

section Line

variable {line : List UInt8} {k : Nat}

/-- What has been read of the line, with its CR. -/
theorem fieldAt_cr {c : Nat} (hc : indexByte line 0x0D = some c) (hlt : c < k) :
    fieldAt (line.take k) 0 = trimSpace (line.take c) := by
  have hfound : indexByte (line.take k) 0x0D = some c := by
    simp [indexByte_take, hc, Option.guard, hlt]
  show trimSpace ((line.take k).take
    (((indexByte (line.take k) 0x0D).or (indexByte (line.take k) 0x0A)).getD _)) = _
  rw [hfound, Option.some_or, Option.getD_some, List.take_take, Nat.min_eq_left (by omega)]

/-- Without a CR, up to an LF. -/
theorem fieldAt_lf (hcr : 0x0D ∉ line.take k) {l : Nat} (hl : indexByte line 0x0A = some l)
    (hlt : l < k) : fieldAt (line.take k) 0 = trimSpace (line.take l) := by
  have hfound : indexByte (line.take k) 0x0A = some l := by
    simp [indexByte_take, hl, Option.guard, hlt]
  show trimSpace ((line.take k).take
    (((indexByte (line.take k) 0x0D).or (indexByte (line.take k) 0x0A)).getD _)) = _
  rw [indexByte_eq_none.mpr hcr, hfound, Option.none_or, Option.getD_some, List.take_take,
    Nat.min_eq_left (by omega)]

/-- Without a line break, all of it. -/
theorem fieldAt_open (hcr : 0x0D ∉ line.take k) (hlf : 0x0A ∉ line.take k) :
    fieldAt (line.take k) 0 = trimSpace (line.take k) := by
  show trimSpace ((line.take k).take
    (((indexByte (line.take k) 0x0D).or (indexByte (line.take k) 0x0A)).getD
      (line.take k).length)) = _
  rw [indexByte_eq_none.mpr hcr, indexByte_eq_none.mpr hlf, Option.none_or, Option.getD_none,
    List.take_length]

theorem take_succ_index {c : UInt8} (h : index line k = some c) :
    line.take (k + 1) = line.take k ++ [c] := by
  rw [List.take_add_one]
  exact congrArg (line.take k ++ ·) (congrArg Option.toList h)

end Line

section Settled

variable {line : List UInt8} {known : Nat}

/-- Blanks that are added to the line do not change its text. -/
theorem trimSpace_grow
    (hblank : ∀ j c, known ≤ j → 0x0D ∉ line.take (j + 1) → 0x0A ∉ line.take (j + 1) →
      index line j = some c → Blank c)
    {k : Nat} (hk : known ≤ k) (hlen : k ≤ line.length) (hcr : 0x0D ∉ line.take k)
    (hlf : 0x0A ∉ line.take k) : trimSpace (line.take k) = trimSpace (line.take known) := by
  induction k, hk using Nat.le_induction with
  | base => rfl
  | succ k hk ih =>
      obtain ⟨c, hget⟩ : ∃ c, index line k = some c := ⟨_, List.getElem?_eq_getElem hlen⟩
      have hc := hblank k c hk hcr hlf hget
      rw [take_succ_index hget, (trimSpace_concat_iff _ _).mpr hc]
      exact ih (by omega) (notMem_take_of_le hcr (by omega)) (notMem_take_of_le hlf (by omega))

/-- If a CR has not been read, the text is the one up to any later point in front of the
first line break, and the one up to an LF. -/
theorem fieldAt_known
    (hblank : ∀ j c, known ≤ j → 0x0D ∉ line.take (j + 1) → 0x0A ∉ line.take (j + 1) →
      index line j = some c → Blank c) (hcr : 0x0D ∉ line.take known) :
    (∀ k, known ≤ k → k ≤ line.length → 0x0D ∉ line.take k → 0x0A ∉ line.take k →
        trimSpace (line.take k) = fieldAt (line.take known) 0) ∧
      ∀ l, indexByte line 0x0A = some l → 0x0D ∉ line.take l →
        trimSpace (line.take l) = fieldAt (line.take known) 0 := by
  have hopen : ∀ k, known ≤ k → k ≤ line.length → 0x0D ∉ line.take k → 0x0A ∉ line.take k →
      trimSpace (line.take k) = fieldAt (line.take known) 0 := by
    intro k hk hlen hcr' hlf'
    rw [fieldAt_open hcr (notMem_take_of_le hlf' hk)]
    exact trimSpace_grow hblank hk hlen hcr' hlf'
  refine ⟨hopen, ?_⟩
  intro l hl hcr'
  by_cases hread : l < known
  · rw [fieldAt_lf hcr hl hread]
  · exact hopen l (by omega) (Nat.le_of_lt (indexByte_lt hl)) hcr' (notMem_take_first hl)

/-- A line whose text does not change is settled. -/
theorem settled_of_same
    (h : ∀ k, known ≤ k → k ≤ line.length →
      fieldAt (line.take k) 0 = fieldAt (line.take known) 0) : Settled line known := by
  have hsame : ∀ j k, known ≤ j → known ≤ k → j ≤ line.length → k ≤ line.length →
      fieldAt (line.take j) 0 = fieldAt (line.take k) 0 :=
    fun j k hj hk hjl hkl => (h j hj hjl).trans (h k hk hkl).symm
  by_cases hcr : 0x0D ∈ line.take known
  · exact .inl hcr
  · refine .inr ⟨?_, ?_⟩
    · -- one more byte that ends no line
      intro j c hj hcr' hlf' hc
      have hlt : j < line.length := (List.getElem?_eq_some_iff.mp hc).1
      have hstep := hsame (j + 1) j (by omega) hj hlt (by omega)
      rw [fieldAt_open hcr' hlf', fieldAt_open (notMem_take_of_le hcr' (by omega))
        (notMem_take_of_le hlf' (by omega)), take_succ_index hc] at hstep
      exact (trimSpace_concat_iff _ _).mp hstep
    · -- right behind the LF, and right behind the CR
      intro l c hl hc hlt
      have hlen := indexByte_lt hc
      have hknown : known ≤ c := by
        by_contra hgt
        exact hcr (mem_take_iff.mpr ⟨c, hc, by omega⟩)
      have hfirst : 0x0D ∉ line.take (max known (l + 1)) :=
        notMem_take_of_le (notMem_take_first hc) (by omega)
      have hbreaks := hsame (c + 1) (max known (l + 1)) (by omega) (by omega) hlen (by omega)
      rw [fieldAt_cr hc (by omega), fieldAt_lf hfirst hl (by omega)] at hbreaks
      exact hbreaks

/-- The text of a settled line does not change: by the line break at which it is cut. -/
theorem Settled.same (h : Settled line known) {k : Nat} (hk : known ≤ k)
    (hlen : k ≤ line.length) : fieldAt (line.take k) 0 = fieldAt (line.take known) 0 := by
  by_cases hcr : 0x0D ∈ line.take known
  · obtain ⟨c, hc, hlt⟩ := mem_take_iff.mp hcr
    rw [fieldAt_cr hc hlt, fieldAt_cr hc (by omega)]
  · obtain ⟨hblank, hbetween⟩ := h.resolve_left hcr
    obtain ⟨hopen, hline⟩ := fieldAt_known hblank hcr
    by_cases hcr' : 0x0D ∈ line.take k
    · obtain ⟨c, hc, hlt⟩ := mem_take_iff.mp hcr'
      have hknown : known ≤ c := by
        by_contra hgt
        exact hcr (mem_take_iff.mpr ⟨c, hc, by omega⟩)
      have hfirst := notMem_take_first hc
      rw [fieldAt_cr hc hlt]
      by_cases hlf : 0x0A ∈ line.take c
      · -- cut at the CR now, and at the LF before
        obtain ⟨l, hl, hlc⟩ := mem_take_iff.mp hlf
        rw [hbetween l c hl hc hlc]
        exact hline l hl (notMem_take_of_le hfirst (by omega))
      · exact hopen c hknown (by omega) hfirst hlf
    · by_cases hlf : 0x0A ∈ line.take k
      · obtain ⟨l, hl, hlk⟩ := mem_take_iff.mp hlf
        rw [fieldAt_lf hcr' hl hlk]
        exact hline l hl (notMem_take_of_le hcr' (by omega))
      · rw [fieldAt_open hcr' hlf]
        exact hopen k hk hlen hcr' hlf

end Settled

/-! ## The search in what was read -/

theorem hostAt_take (stream : List UInt8) (n : Nat) :
    hostAt (stream.take n) = (hostAt stream).filter fun i => i + needle.length ≤ n := by
  rw [hostAt, hostAt, List.map_take]
  exact indexOf_take ..

/-- The line that starts at `start`, in the first `n` of at most `most` bytes. -/
theorem fieldAt_take (stream : List UInt8) {start n most : Nat} (hn : n ≤ most) :
    fieldAt (stream.take n) start =
      fieldAt (((stream.take most).drop start).take (n - start)) 0 := by
  rw [fieldAt_eq, List.drop_take, List.drop_take, List.take_take, Nat.min_eq_left (by omega)]

section Search

variable {lowerRune : Nat → Nat} (hlower : AsciiOnly lowerRune needle) {stream : List UInt8}
include hlower

/-- Too little to hold a Host field. -/
theorem parse_before {n : Nat} (h : ∀ i, hostAt stream = some i → n < i + needle.length) :
    parseHostHeader lowerRune (stream.take n) = some [] := by
  apply parseHostHeader_absent hlower
  rw [hostAt_take]
  cases hat : hostAt stream with
  | none => rfl
  | some i =>
      have := h i hat
      simp [Option.filter]
      omega

theorem parse_after {i n : Nat} (hat : hostAt stream = some i) (hi : i + needle.length ≤ n)
    (hn : n ≤ stream.length) :
    parseHostHeader lowerRune (stream.take n) =
      if valueStart lowerRune stream i ≤ n then
        some (fieldAt (stream.take n) (valueStart lowerRune stream i))
      else none := by
  have hfound : hostAt (stream.take n) = some i := by
    rw [hostAt_take, hat]
    simp [Option.filter, hi]
  have hsame : loweredLength lowerRune (stream.take n) i = loweredLength lowerRune stream i := by
    rw [loweredLength, loweredLength, List.take_take, Nat.min_eq_left (by omega)]
  have hlen : (stream.take n).length = n := by
    rw [List.length_take]
    omega
  rw [parseHostHeader_found hlower hfound, hsame, hlen]
  rfl

/-- One host in all that can have been read leaves no room for a disturbance. -/
theorem undisturbed_of_same (hleast : leastRead stream ≤ stream.length) {host : GoString}
    (hall : ∀ n, leastRead stream ≤ n → n ≤ mostRead stream →
      parseHostHeader lowerRune (stream.take n) = some host) : Undisturbed lowerRune stream := by
  intro i known hat hi hknown
  have hmost : mostRead stream ≤ stream.length := Nat.min_le_right _ _
  -- from `known` on the search finds the field, so the start is in range and the text is `host`
  have hfield : ∀ n, known ≤ n → n ≤ mostRead stream → valueStart lowerRune stream i ≤ n ∧
      fieldAt (stream.take n) (valueStart lowerRune stream i) = host := by
    intro n hn hle
    have hafter := hall n (by omega) hle
    rw [parse_after hlower hat (by omega) (by omega)] at hafter
    split at hafter
    · rename_i hstart
      exact ⟨hstart, Option.some.inj hafter⟩
    · cases hafter
  have hlm : known ≤ mostRead stream := by
    rw [hknown]
    rw [mostRead] at hi ⊢
    omega
  obtain ⟨hstart, hhost⟩ := hfield known (Nat.le_refl _) hlm
  refine ⟨hstart, ?_, ?_⟩
  · intro hlt
    -- the least that is read does not hold the field, and gives the empty host
    have hbefore := hall (leastRead stream) (Nat.le_refl _) (by omega)
    rw [parse_before hlower] at hbefore
    · rw [hhost, ← Option.some.inj hbefore]
    · intro j hj
      rw [hat] at hj
      cases hj
      exact hlt
  · apply settled_of_same
    intro k hk hlen
    rw [List.length_drop, List.length_take, Nat.min_eq_left hmost] at hlen
    obtain ⟨_, hn⟩ := hfield (valueStart lowerRune stream i + k) (by omega) (by omega)
    rw [fieldAt_take stream (show _ ≤ mostRead stream by omega), Nat.add_sub_cancel_left] at hn
    rw [fieldAt_take stream hlm] at hhost
    rw [hn, hhost]

theorem same_of_undisturbed (h : Undisturbed lowerRune stream) :
    ∃ host, ∀ n, leastRead stream ≤ n → n ≤ mostRead stream →
      parseHostHeader lowerRune (stream.take n) = some host := by
  have hmost : mostRead stream ≤ stream.length := Nat.min_le_right _ _
  by_cases hfield : ∃ i, hostAt stream = some i ∧ i + needle.length ≤ mostRead stream
  · obtain ⟨i, hat, hi⟩ := hfield
    obtain ⟨known, hknown⟩ : ∃ known, known = max (leastRead stream) (i + needle.length) :=
      ⟨_, rfl⟩
    obtain ⟨hstart, hempty, hsettled⟩ := h i known hat hi hknown
    refine ⟨fieldAt (stream.take known) (valueStart lowerRune stream i), ?_⟩
    intro n hn hle
    by_cases hin : i + needle.length ≤ n
    · have hlen : n - valueStart lowerRune stream i ≤
          ((stream.take (mostRead stream)).drop (valueStart lowerRune stream i)).length := by
        rw [List.length_drop, List.length_take, Nat.min_eq_left hmost]
        omega
      have hsame := hsettled.same (k := n - valueStart lowerRune stream i) (by omega) hlen
      rw [← fieldAt_take stream hle,
        ← fieldAt_take stream (show known ≤ mostRead stream by omega)] at hsame
      rw [parse_after hlower hat hin (by omega), if_pos (by omega), hsame]
    · rw [hempty (by omega)]
      -- too short for the field: the host is empty, as the field is
      apply parse_before hlower
      intro j hj
      rw [hat] at hj
      cases hj
      omega
  · refine ⟨[], ?_⟩
    intro n hn hle
    apply parse_before hlower
    intro i hat
    by_contra hge
    exact hfield ⟨i, hat, by omega⟩

end Search

/-- **The host is independent of how the stream is cut into reads exactly when no read
can change what the search finds.** -/
theorem segmentation_iff {lowerRune : Nat → Nat} (hlower : AsciiOnly lowerRune needle) (b : UInt8)
    (stream : List UInt8) :
    Independent lowerRune b stream ↔ Undisturbed lowerRune (b :: stream) := by
  have hleast : leastRead (b :: stream) ≤ (b :: stream).length := by
    rw [List.length_cons, Nat.add_comm]
    exact leastRead_le
  rw [independent_iff]
  constructor
  · rintro ⟨host, hall⟩
    exact undisturbed_of_same hlower hleast hall
  · exact same_of_undisturbed hlower

/-! ## Two streams -/

/-- What looks like another Host field behind the head. -/
def decoy : List UInt8 := [0x0D, 0x0A] ++ ascii "host: b" ++ [0x0D, 0x0A]

/-- After the first byte: a head with a Host field, and more. -/
def named : List UInt8 :=
  ascii "ET / HTTP/1.1" ++ [0x0D, 0x0A] ++ ascii "Host: a" ++ headEnd ++ decoy

theorem named_undisturbed : Undisturbed latinLower (0x47 :: named) := by
  intro i known hat _ hknown
  have hfound : hostAt (0x47 :: named) = some 14 := by decide +kernel
  obtain rfl := Option.some.inj (hfound.symm.trans hat)
  have hleast : leastRead (0x47 :: named) = 27 := by decide +kernel
  have hmost : mostRead (0x47 :: named) = 38 := by decide +kernel
  have hstart : valueStart latinLower (0x47 :: named) 14 = 22 := by
    rw [valueStart, loweredLength, toLower, if_pos (by decide +kernel), List.length_map]
    rfl
  have hmax : max 27 (14 + needle.length) = 27 := by decide +kernel
  rw [hleast, hmax] at hknown
  rw [hknown, hleast, hmost, hstart]
  refine ⟨by omega, fun hlt => absurd hlt (by decide +kernel), .inl ?_⟩
  decide +kernel

theorem segmentation_iff_named : Independent latinLower 0x47 named :=
  (segmentation_iff latinLower_asciiOnly 0x47 named).mpr named_undisturbed

/-- After the first byte: a head without a Host field. -/
def nameless : List UInt8 := ascii "ET / HTTP/1.0" ++ headEnd

theorem nameless_ascii : ∀ c ∈ 0x47 :: (nameless ++ decoy), c.toNat < runeSelf := by
  have hall : ((0x47 :: (nameless ++ decoy)).all fun c => c.toNat < runeSelf) = true := by
    decide +kernel
  intro c hc
  exact of_decide_eq_true (List.all_eq_true.mp hall c hc)

/-- In one read the decoy is found, in two it is not. -/
theorem body_decides_host :
    Cut httpReadBufSize (nameless ++ decoy) [nameless ++ decoy] ∧
      Cut httpReadBufSize (nameless ++ decoy) [nameless, decoy] ∧
      hostOf latinLower 0x47 [nameless ++ decoy] = some (ascii "b") ∧
      hostOf latinLower 0x47 [nameless, decoy] = some [] ∧
      ¬ Independent latinLower 0x47 (nameless ++ decoy) := by
  have hone : Cut httpReadBufSize (nameless ++ decoy) [nameless ++ decoy] :=
    ⟨by simp, by decide +kernel⟩
  have htwo : Cut httpReadBufSize (nameless ++ decoy) [nameless, decoy] :=
    ⟨by simp, by decide +kernel⟩
  have hfound : hostOf latinLower 0x47 [nameless ++ decoy] = some (ascii "b") := by
    have hall : (0x47 :: (nameless ++ decoy)).take (reach (leastRead (0x47 :: (nameless ++ decoy)))
        1 [nameless ++ decoy]) = 0x47 :: (nameless ++ decoy) := by decide +kernel
    have hat : hostAt (0x47 :: (nameless ++ decoy)) = some 18 := by decide +kernel
    have hdrop : (0x47 :: (nameless ++ decoy)).drop (18 + needle.length) =
        ascii "b" ++ 0x0D :: [0x0A] := by decide +kernel
    have htrim : trimSpace (ascii "b") = ascii "b" :=
      @trimSpace_blanks [] (ascii "b") [] (by simp) ⟨by decide +kernel, by decide +kernel⟩ (by simp)
    rw [hostOf_eq _ hone, hall, parseHostHeader_ascii nameless_ascii, hostField, hat]
    exact congrArg some ((fieldAt_line hdrop (by decide)).trans htrim)
  have habsent : hostOf latinLower 0x47 [nameless, decoy] = some [] := by
    have hall : (0x47 :: (nameless ++ decoy)).take (reach (leastRead (0x47 :: (nameless ++ decoy)))
        1 [nameless, decoy]) = 0x47 :: nameless := by decide +kernel
    have hat : hostAt (0x47 :: nameless) = none := by decide +kernel
    rw [hostOf_eq _ htwo, hall]
    exact parseHostHeader_absent latinLower_asciiOnly hat
  refine ⟨hone, htwo, hfound, habsent, ?_⟩
  rintro ⟨host, hall, _⟩
  have hsame := (hall _ hone).trans (hall _ htwo).symm
  rw [hfound, habsent] at hsame
  simp [ascii] at hsame

end AiInterceptor.Theorems.Segmentation
