import AiInterceptor.Go.Strings

/-!
# The parts of `bytes` and `unicode/utf8` the proxy uses

Byte slices are mapped and trimmed rune by rune: a byte that starts no valid
UTF-8 sequence is the rune U+FFFD of width one, and is encoded back in three
bytes. The lower-case table of `unicode` beyond ASCII enters as the parameter
`lowerRune`.
-/

namespace AiInterceptor.Go

def runeSelf : Nat := 0x80
def runeError : Nat := 0xFFFD
def maxRune : Nat := 0x10FFFF

/-- The length of a sequence by its first byte, and the range of its second
byte. -/
def leadByte (b : Nat) : Option (Nat × Nat × Nat) :=
  if 0xC2 ≤ b ∧ b ≤ 0xDF then some (2, 0x80, 0xBF)
  else if b = 0xE0 then some (3, 0xA0, 0xBF)
  else if b = 0xED then some (3, 0x80, 0x9F)
  else if 0xE1 ≤ b ∧ b ≤ 0xEF then some (3, 0x80, 0xBF)
  else if b = 0xF0 then some (4, 0x90, 0xBF)
  else if 0xF1 ≤ b ∧ b ≤ 0xF3 then some (4, 0x80, 0xBF)
  else if b = 0xF4 then some (4, 0x80, 0x8F)
  else none

def isContinuation (b : Nat) : Bool := 0x80 ≤ b && b ≤ 0xBF

/-- `utf8.DecodeRune`: the first rune and its width. -/
def decodeRune : List UInt8 → Nat × Nat
  | [] => (runeError, 0)
  | b0 :: rest =>
      let x0 := b0.toNat
      if x0 < runeSelf then (x0, 1)
      else
        match leadByte x0, rest with
        | some (2, lo, hi), b1 :: _ =>
            let x1 := b1.toNat
            if lo ≤ x1 ∧ x1 ≤ hi then (x0 % 0x20 * 0x40 + x1 % 0x40, 2) else (runeError, 1)
        | some (3, lo, hi), b1 :: b2 :: _ =>
            let x1 := b1.toNat
            let x2 := b2.toNat
            if lo ≤ x1 ∧ x1 ≤ hi ∧ isContinuation x2 then
              (x0 % 0x10 * 0x1000 + x1 % 0x40 * 0x40 + x2 % 0x40, 3)
            else (runeError, 1)
        | some (4, lo, hi), b1 :: b2 :: b3 :: _ =>
            let x1 := b1.toNat
            let x2 := b2.toNat
            let x3 := b3.toNat
            if lo ≤ x1 ∧ x1 ≤ hi ∧ isContinuation x2 ∧ isContinuation x3 then
              (x0 % 0x8 * 0x40000 + x1 % 0x40 * 0x1000 + x2 % 0x40 * 0x40 + x3 % 0x40, 4)
            else (runeError, 1)
        | _, _ => (runeError, 1)

theorem decodeRune_pos {s : List UInt8} (h : s ≠ []) : 0 < (decodeRune s).2 := by
  cases s with
  | nil => exact absurd rfl h
  | cons b rest =>
      simp only [decodeRune]
      repeat' split
      all_goals exact Nat.succ_pos _

/-- `utf8.AppendRune` to an empty slice. -/
def encodeRune (r : Nat) : List UInt8 :=
  if r < 0x80 then [UInt8.ofNat r]
  else if r < 0x800 then [UInt8.ofNat (0xC0 + r / 0x40), UInt8.ofNat (0x80 + r % 0x40)]
  else if maxRune < r ∨ (0xD800 ≤ r ∧ r ≤ 0xDFFF) then [0xEF, 0xBF, 0xBD]
  else if r < 0x10000 then
    [UInt8.ofNat (0xE0 + r / 0x1000), UInt8.ofNat (0x80 + r / 0x40 % 0x40),
      UInt8.ofNat (0x80 + r % 0x40)]
  else
    [UInt8.ofNat (0xF0 + r / 0x40000), UInt8.ofNat (0x80 + r / 0x1000 % 0x40),
      UInt8.ofNat (0x80 + r / 0x40 % 0x40), UInt8.ofNat (0x80 + r % 0x40)]

/-- `bytes.Map` with a mapping that drops no rune. -/
def mapRunes (mapping : Nat → Nat) (s : List UInt8) : List UInt8 :=
  if _h : s = [] then []
  else
    encodeRune (mapping (decodeRune s).1) ++ mapRunes mapping (s.drop (decodeRune s).2)
termination_by s.length
decreasing_by
  have hpos := decodeRune_pos _h
  have hlen := List.length_pos_of_ne_nil _h
  rw [List.length_drop]
  omega

def asciiLower (b : Nat) : Nat := if 0x41 ≤ b ∧ b ≤ 0x5A then b + 0x20 else b

def lowerByte (b : UInt8) : UInt8 := UInt8.ofNat (asciiLower b.toNat)

/-- `bytes.ToLower`. -/
def toLower (lowerRune : Nat → Nat) (s : List UInt8) : List UInt8 :=
  if s.all fun b => b.toNat < runeSelf then s.map lowerByte
  else mapRunes (fun r => if r < runeSelf then asciiLower r else lowerRune r) s

/-- `unicode.IsSpace`. -/
def isSpace (r : Nat) : Bool :=
  (0x09 ≤ r && r ≤ 0x0D) || r == 0x20 || r == 0x85 || r == 0xA0 || r == 0x1680 ||
    (0x2000 ≤ r && r ≤ 0x200A) || r == 0x2028 || r == 0x2029 || r == 0x202F || r == 0x205F ||
    r == 0x3000

/-- `utf8.RuneStart`. -/
def runeStart (b : UInt8) : Bool := !isContinuation b.toNat

/-- `utf8.DecodeLastRune`: step back over at most three continuation bytes, and
accept the sequence found there only if it reaches the end. -/
def decodeLastRune (s : List UInt8) : Nat × Nat :=
  match s.getLast? with
  | none => (runeError, 0)
  | some last =>
      if last.toNat < runeSelf then (last.toNat, 1)
      else
        match [2, 3, 4].find? fun j => j ≤ s.length && (s[s.length - j]?).any runeStart with
        | none => (runeError, 1)
        | some j =>
            let (r, size) := decodeRune (s.drop (s.length - j))
            if size = j then (r, size) else (runeError, 1)

theorem decodeLastRune_pos {s : List UInt8} (h : s ≠ []) : 0 < (decodeLastRune s).2 := by
  unfold decodeLastRune
  cases hlast : s.getLast? with
  | none => exact absurd (List.getLast?_eq_none_iff.mp hlast) h
  | some last =>
      dsimp only
      split
      · exact Nat.succ_pos _
      · split
        · decide
        · rename_i j hj
          have hmem : j ∈ [2, 3, 4] := List.mem_of_find?_eq_some hj
          split
          · rename_i hsize
            have hpos : 0 < j := by
              rcases List.mem_cons.mp hmem with rfl | hmem
              · decide
              · rcases List.mem_cons.mp hmem with rfl | hmem
                · decide
                · obtain rfl := List.mem_singleton.mp hmem
                  decide
            show 0 < (decodeRune _).2
            rw [hsize]
            exact hpos
          · decide

/-- `bytes.TrimLeftFunc` with `unicode.IsSpace`. -/
def trimLeftSpace (s : List UInt8) : List UInt8 :=
  if _h : s = [] then []
  else if isSpace (decodeRune s).1 then trimLeftSpace (s.drop (decodeRune s).2)
  else s
termination_by s.length
decreasing_by
  have hpos := decodeRune_pos _h
  have hlen := List.length_pos_of_ne_nil _h
  rw [List.length_drop]
  omega

/-- `bytes.TrimRightFunc` with `unicode.IsSpace`. -/
def trimRightSpace (s : List UInt8) : List UInt8 :=
  if _h : s = [] then []
  else if isSpace (decodeLastRune s).1 then
    trimRightSpace (s.take (s.length - (decodeLastRune s).2))
  else s
termination_by s.length
decreasing_by
  have hpos := decodeLastRune_pos _h
  have hlen := List.length_pos_of_ne_nil _h
  rw [List.length_take]
  omega

/-- `bytes.TrimSpace`. -/
def trimSpace (s : List UInt8) : List UInt8 := trimRightSpace (trimLeftSpace s)

/-- `bytes.Index`. -/
def indexOf (s sep : List UInt8) : Option Nat :=
  if sep.isPrefixOf s then some 0
  else
    match s with
    | [] => none
    | _ :: rest => (indexOf rest sep).map (· + 1)

/-- `bytes.Contains`. -/
def contains (s sep : List UInt8) : Bool := (indexOf s sep).isSome

/-! ## `net.SplitHostPort` and `net.JoinHostPort` -/

inductive AddrError
  | missingPort        -- "missing port in address"
  | tooManyColons      -- "too many colons in address"
  | missingBracket     -- "missing ']' in address"
  | unexpectedOpen     -- "unexpected '[' in address"
  | unexpectedClose    -- "unexpected ']' in address"
  deriving DecidableEq, Repr

def colon : UInt8 := 0x3A
def openBracket : UInt8 := 0x5B
def closeBracket : UInt8 := 0x5D

/-- `strings.LastIndexByte`. -/
def lastIndexByte (s : GoString) (c : UInt8) : Option Nat :=
  (indexByte s.reverse c).map fun k => s.length - 1 - k

/-- `net.SplitHostPort`. The port starts after the last colon; a host in brackets
ends right before it, any other host has no colon. -/
def splitHostPort (hostport : GoString) : Except AddrError (GoString × GoString) :=
  match lastIndexByte hostport colon with
  | none => .error .missingPort
  | some i =>
      if hostport.head? = some openBracket then
        match indexByte hostport closeBracket with
        | none => .error .missingBracket
        | some close =>
            if close + 1 = hostport.length then .error .missingPort
            else if close + 1 = i then
              checkBrackets (hostport.take close |>.drop 1) 1 (close + 1) i
            else if hostport[close + 1]? = some colon then .error .tooManyColons
            else .error .missingPort
      else
        let host := hostport.take i
        if (indexByte host colon).isSome then .error .tooManyColons
        else checkBrackets host 0 0 i
where
  checkBrackets (host : GoString) (j k i : Nat) : Except AddrError (GoString × GoString) :=
    if (indexByte (hostport.drop j) openBracket).isSome then .error .unexpectedOpen
    else if (indexByte (hostport.drop k) closeBracket).isSome then .error .unexpectedClose
    else .ok (host, hostport.drop (i + 1))

/-- `net.JoinHostPort`. -/
def joinHostPort (host port : GoString) : GoString :=
  if (indexByte host colon).isSome then ascii "[" ++ host ++ ascii "]:" ++ port
  else host ++ ascii ":" ++ port

end AiInterceptor.Go
