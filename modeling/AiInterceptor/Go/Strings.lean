import Mathlib

/-!
# Go strings and byte slices

A Go `string` and a `[]byte` are both finite byte sequences here. An index or
slice expression out of range panics; the partial forms below return `none`
for the panic, so that a function built from them is `some` exactly when the Go
code runs to its end.
-/

namespace AiInterceptor.Go

/-- A Go `string`: any bytes, valid UTF-8 or not. -/
abbrev GoString := List UInt8

/-- The bytes of an ASCII literal. -/
def ascii (s : String) : GoString := s.toList.map fun c => UInt8.ofNat c.toNat

/-- `strings.HasSuffix`. -/
def hasSuffix (s suffix : GoString) : Bool := decide (suffix <:+ s)

/-- `strings.TrimSuffix`: remove one trailing occurrence. -/
def trimSuffix (s suffix : GoString) : GoString :=
  if hasSuffix s suffix then s.take (s.length - suffix.length) else s

/-- The index expression `s[i]`. -/
def index (s : List UInt8) (i : Nat) : Option UInt8 := s[i]?

/-- The slice expression `s[lo:hi]` of a slice whose capacity is its length. -/
def slice (s : List UInt8) (lo hi : Nat) : Option (List UInt8) :=
  if lo ≤ hi ∧ hi ≤ s.length then some ((s.drop lo).take (hi - lo)) else none

/-- `bytes.IndexByte`: the position of the first occurrence. -/
def indexByte (s : List UInt8) (c : UInt8) : Option Nat :=
  s.findIdx? (· == c)

theorem slice_eq_some {s : List UInt8} {lo hi : Nat} (hlo : lo ≤ hi) (hhi : hi ≤ s.length) :
    slice s lo hi = some ((s.drop lo).take (hi - lo)) := by
  rw [slice, if_pos ⟨hlo, hhi⟩]

/-- The middle part of a concatenation, as a slice. -/
theorem slice_append (a b c : List UInt8) :
    slice (a ++ b ++ c) a.length (a.length + b.length) = some b := by
  rw [slice_eq_some (by omega) (by simp only [List.length_append]; omega)]
  rw [List.append_assoc, List.drop_left, Nat.add_sub_cancel_left, List.take_left]

end AiInterceptor.Go
