import AiInterceptor.Go.Strings

/-!
# `net.IP`: parsing and printing

The parts of Go's `net` and `net/netip` the agent relies on. A `net.IP` is a
byte slice of any length; `to4` accepts the 4-byte form and the IPv4-mapped
16-byte form. `parseIP` follows `netip.ParseAddr`: the first of `.`, `:` and
`%` in the text decides which grammar applies, and any error yields the nil
address. Zoned addresses are rejected by `net.ParseIP`, so a `%` anywhere gives
nil.
-/

namespace AiInterceptor.Go

/-- A `net.IP`: a byte slice. -/
abbrev IP := List UInt8

/-- The four bytes of an IPv4 address, most significant first. -/
structure Ip4 where
  b0 : UInt8
  b1 : UInt8
  b2 : UInt8
  b3 : UInt8
  deriving DecidableEq, Repr

namespace Ip4

/-- The address in network byte order. -/
def bytes (ip : Ip4) : List UInt8 := [ip.b0, ip.b1, ip.b2, ip.b3]

@[simp] theorem bytes_length (ip : Ip4) : ip.bytes.length = 4 := rfl

theorem bytes_injective : Function.Injective bytes := by
  rintro ⟨a, b, c, d⟩ ⟨a', b', c', d'⟩ h
  simpa [bytes] using h

/-- The address whose bytes are given (the zero address for other lengths). -/
def ofBytes : List UInt8 → Ip4
  | [a, b, c, d] => ⟨a, b, c, d⟩
  | _ => ⟨0, 0, 0, 0⟩

@[simp] theorem ofBytes_bytes (ip : Ip4) : ofBytes ip.bytes = ip := rfl

end Ip4

/-- The prefix of an IPv4-mapped IPv6 address. -/
def v4InV6Prefix : List UInt8 := List.replicate 10 0 ++ [0xff, 0xff]

/-- `IP.To4`. -/
def to4 (ip : IP) : Option Ip4 :=
  if ip.length = 4 then some (Ip4.ofBytes ip)
  else if ip.length = 16 ∧ ip.take 12 = v4InV6Prefix then some (Ip4.ofBytes (ip.drop 12))
  else none

/-- Decimal text of a byte. -/
def decimal (b : UInt8) : GoString := ascii (toString b.toNat)

/-- `IP.String` of a 4-byte address. -/
def ipString (ip : Ip4) : GoString :=
  decimal ip.b0 ++ ascii "." ++ decimal ip.b1 ++ ascii "." ++ decimal ip.b2 ++ ascii "." ++
    decimal ip.b3

/-! ## `netip.ParseAddr` -/

/-- The loop of `parseIPv4Fields`. `prev` is the character before, `none` at
the start of the text. -/
def parseIPv4Loop : GoString → Option UInt8 → Nat → Nat → List UInt8 → Option (List UInt8)
  | [], _, val, _, fields =>
      if fields.length < 3 then none else some (fields ++ [UInt8.ofNat val])
  | c :: rest, prev, val, digLen, fields =>
      if 48 ≤ c ∧ c ≤ 57 then
        -- an octet with a leading zero is rejected
        if digLen = 1 ∧ val = 0 then none
        else
          let val := val * 10 + (c.toNat - 48)
          if val > 255 then none else parseIPv4Loop rest (some c) val (digLen + 1) fields
      else if c = 46 then
        -- `.1.2.3`, `1.2.3.` and `1..2.3`
        if prev = none ∨ rest = [] ∨ prev = some 46 then none
        else if fields.length = 3 then none
        else parseIPv4Loop rest (some c) 0 0 (fields ++ [UInt8.ofNat val])
      else none

/-- `parseIPv4Fields`. -/
def parseIPv4Fields (s : GoString) : Option (List UInt8) := parseIPv4Loop s none 0 0 []

/-- Value of a hexadecimal digit. -/
def hexDigit (c : UInt8) : Option Nat :=
  if 48 ≤ c ∧ c ≤ 57 then some (c.toNat - 48)
  else if 97 ≤ c ∧ c ≤ 102 then some (c.toNat - 97 + 10)
  else if 65 ≤ c ∧ c ≤ 70 then some (c.toNat - 65 + 10)
  else none

/-- One hexadecimal group: digits read, value and the text after it. -/
def hexGroup : GoString → Nat → Nat → Option (Nat × Nat × GoString)
  | [], off, acc => some (off, acc, [])
  | c :: rest, off, acc =>
      match hexDigit c with
      | none => some (off, acc, c :: rest)
      | some d =>
          if off > 3 then none
          else if acc * 16 + d > 65535 then none
          else hexGroup rest (off + 1) (acc * 16 + d)

/-- The group loop of `parseIPv6`, with at most `groups` groups to go. Returns
the unread text, the bytes read and the position of the ellipsis. -/
def parseIPv6Loop : Nat → GoString → List UInt8 → Option Nat →
    Option (GoString × List UInt8 × Option Nat)
  | 0, s, ip, ellipsis => some (s, ip, ellipsis)
  | groups + 1, s, ip, ellipsis =>
      match hexGroup s 0 0 with
      | none => none
      | some (off, acc, rest) =>
          if off = 0 then none
          else if rest.head? = some 46 then
            -- a dotted tail replaces the last two groups
            if ellipsis = none ∧ ip.length ≠ 12 then none
            else if ip.length + 4 > 16 then none
            else (parseIPv4Fields s).map fun v4 => ([], ip ++ v4, ellipsis)
          else
            let ip := ip ++ [UInt8.ofNat (acc / 256), UInt8.ofNat acc]
            match rest with
            | [] => some ([], ip, ellipsis)
            | c :: tail =>
                if c ≠ 58 then none
                else match tail with
                  | [] => none
                  | d :: tail' =>
                      if d = 58 then
                        if ellipsis ≠ none then none
                        else if tail' = [] then some ([], ip, some ip.length)
                        else parseIPv6Loop groups tail' ip (some ip.length)
                      else parseIPv6Loop groups tail ip ellipsis

/-- Expand the ellipsis of a short address. -/
def expandEllipsis (ip : List UInt8) : Option Nat → Option (List UInt8)
  | none => if ip.length < 16 then none else some ip
  | some at_ =>
      if ip.length < 16 then
        some (ip.take at_ ++ List.replicate (16 - ip.length) 0 ++ ip.drop at_)
      else none

/-- `parseIPv6` of a text without zone. -/
def parseIPv6 (s : GoString) : Option (List UInt8) :=
  let leading := s.take 2 = ascii "::"
  let rest := if leading then s.drop 2 else s
  if leading ∧ rest = [] then some (List.replicate 16 0)
  else
    match parseIPv6Loop 8 rest [] (if leading then some 0 else none) with
    | none => none
    | some (unread, ip, ellipsis) => if unread ≠ [] then none else expandEllipsis ip ellipsis

/-- `net.ParseIP`: the 16-byte form of the address, or nil. -/
def parseIP (s : GoString) : Option IP :=
  match s.find? (fun c => c = 46 ∨ c = 58 ∨ c = 37) with
  | some 46 => (parseIPv4Fields s).map fun v4 => v4InV6Prefix ++ v4
  | some 58 => if 37 ∈ s then none else parseIPv6 s
  | _ => none

/-- `net.ParseIP(s).To4()`. -/
def parseIP4 (s : GoString) : Option Ip4 := (parseIP s).bind to4

example : parseIP4 (ascii "10.100.0.50") = some ⟨10, 100, 0, 50⟩ := by decide
example : parseIP4 (ascii "::ffff:192.0.2.1") = some ⟨192, 0, 2, 1⟩ := by decide
example : parseIP4 (ascii "10.0.0.01") = none := by decide
example : parseIP4 (ascii "2001:db8::1") = none := by decide

end AiInterceptor.Go
