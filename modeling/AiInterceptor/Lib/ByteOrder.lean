import Mathlib

/-!
# Byte orders and fixed-width integers in memory

A machine word and the bytes that hold it, for both byte orders at once.
`ByteOrder.put` lays a number out in a given number of bytes, `ByteOrder.get`
reads a run of bytes as a number; the two are inverse up to the width. The
width-indexed forms (`put16`, `get16`, ...) fix the word type, so that a load
after a store of the same width is the identity and a store after a load gives
the same bytes back.
-/

namespace AiInterceptor.Lib

/-- How a machine orders the bytes of a word in memory. -/
inductive ByteOrder
  | little
  | big
  deriving DecidableEq, Repr

/-- The low `width` bytes of a number, least significant first. -/
def lowBytes : Nat → Nat → List UInt8
  | 0, _ => []
  | width + 1, n => UInt8.ofNat n :: lowBytes width (n / 256)

/-- The number whose bytes, least significant first, are given. -/
def ofLowBytes : List UInt8 → Nat
  | [] => 0
  | b :: rest => b.toNat + 256 * ofLowBytes rest

@[simp] theorem lowBytes_length (width n : Nat) : (lowBytes width n).length = width := by
  induction width generalizing n with
  | zero => rfl
  | succ width ih => simp only [lowBytes, List.length_cons, ih]

theorem ofLowBytes_lt (bytes : List UInt8) :
    ofLowBytes bytes < 256 ^ bytes.length := by
  induction bytes with
  | nil => simp [ofLowBytes]
  | cons b rest ih =>
      have hb : b.toNat < 256 := b.toNat_lt
      simp only [ofLowBytes, List.length_cons, Nat.pow_succ]
      omega

/-- Reading back the low bytes recovers the number modulo the width. -/
theorem ofLowBytes_lowBytes (width n : Nat) :
    ofLowBytes (lowBytes width n) = n % 256 ^ width := by
  induction width generalizing n with
  | zero => simp [lowBytes, ofLowBytes, Nat.mod_one]
  | succ width ih =>
      have hlow : (UInt8.ofNat n).toNat = n % 256 := by simp
      rw [lowBytes, ofLowBytes, ih, hlow, Nat.pow_succ, Nat.mul_comm (256 ^ width) 256,
        Nat.mod_mul]

/-- Laying out the number that a run of bytes holds gives the bytes back. -/
theorem lowBytes_ofLowBytes (bytes : List UInt8) :
    lowBytes bytes.length (ofLowBytes bytes) = bytes := by
  induction bytes with
  | nil => rfl
  | cons b rest ih =>
      have hb : b.toNat < 256 := b.toNat_lt
      have hhead : UInt8.ofNat (b.toNat + 256 * ofLowBytes rest) = b := by
        apply UInt8.toNat_inj.mp
        rw [UInt8.toNat_ofNat']
        omega
      have htail : (b.toNat + 256 * ofLowBytes rest) / 256 = ofLowBytes rest := by omega
      simp only [List.length_cons, ofLowBytes, lowBytes, hhead, htail, ih]

namespace ByteOrder

/-- Store a number in `width` bytes. -/
def put (o : ByteOrder) (width n : Nat) : List UInt8 :=
  match o with
  | little => lowBytes width n
  | big => (lowBytes width n).reverse

/-- Load the number a run of bytes holds. -/
def get (o : ByteOrder) (bytes : List UInt8) : Nat :=
  match o with
  | little => ofLowBytes bytes
  | big => ofLowBytes bytes.reverse

@[simp] theorem put_length (o : ByteOrder) (width n : Nat) :
    (o.put width n).length = width := by
  cases o <;> simp [put]

theorem get_lt (o : ByteOrder) (bytes : List UInt8) :
    o.get bytes < 256 ^ bytes.length := by
  cases o with
  | little => exact ofLowBytes_lt bytes
  | big =>
      have h := ofLowBytes_lt bytes.reverse
      rwa [List.length_reverse] at h

/-- A load after a store sees the number modulo the width. -/
theorem get_put (o : ByteOrder) (width n : Nat) :
    o.get (o.put width n) = n % 256 ^ width := by
  cases o with
  | little => exact ofLowBytes_lowBytes width n
  | big =>
      simp only [get, put, List.reverse_reverse]
      exact ofLowBytes_lowBytes width n

/-- A store of a loaded number writes the same bytes. -/
theorem put_get (o : ByteOrder) (bytes : List UInt8) :
    o.put bytes.length (o.get bytes) = bytes := by
  cases o with
  | little => exact lowBytes_ofLowBytes bytes
  | big =>
      have h := lowBytes_ofLowBytes bytes.reverse
      rw [List.length_reverse] at h
      simp only [put, get, h, List.reverse_reverse]

/-! ## Words of 16, 32 and 64 bits -/

/-- Store a 16-bit word. -/
def put16 (o : ByteOrder) (x : UInt16) : List UInt8 := o.put 2 x.toNat

/-- Load a 16-bit word. -/
def get16 (o : ByteOrder) (bytes : List UInt8) : UInt16 := UInt16.ofNat (o.get bytes)

/-- Store a 32-bit word. -/
def put32 (o : ByteOrder) (x : UInt32) : List UInt8 := o.put 4 x.toNat

/-- Load a 32-bit word. -/
def get32 (o : ByteOrder) (bytes : List UInt8) : UInt32 := UInt32.ofNat (o.get bytes)

/-- Store a 64-bit word. -/
def put64 (o : ByteOrder) (x : UInt64) : List UInt8 := o.put 8 x.toNat

/-- Load a 64-bit word. -/
def get64 (o : ByteOrder) (bytes : List UInt8) : UInt64 := UInt64.ofNat (o.get bytes)

@[simp] theorem put16_length (o : ByteOrder) (x : UInt16) : (o.put16 x).length = 2 :=
  put_length o 2 x.toNat

@[simp] theorem put32_length (o : ByteOrder) (x : UInt32) : (o.put32 x).length = 4 :=
  put_length o 4 x.toNat

@[simp] theorem put64_length (o : ByteOrder) (x : UInt64) : (o.put64 x).length = 8 :=
  put_length o 8 x.toNat

@[simp] theorem get16_put16 (o : ByteOrder) (x : UInt16) : o.get16 (o.put16 x) = x := by
  have hx : x.toNat < 256 ^ 2 := x.toNat_lt
  rw [get16, put16, get_put, Nat.mod_eq_of_lt hx, UInt16.ofNat_toNat]

@[simp] theorem get32_put32 (o : ByteOrder) (x : UInt32) : o.get32 (o.put32 x) = x := by
  have hx : x.toNat < 256 ^ 4 := x.toNat_lt
  rw [get32, put32, get_put, Nat.mod_eq_of_lt hx, UInt32.ofNat_toNat]

@[simp] theorem get64_put64 (o : ByteOrder) (x : UInt64) : o.get64 (o.put64 x) = x := by
  have hx : x.toNat < 256 ^ 8 := x.toNat_lt
  rw [get64, put64, get_put, Nat.mod_eq_of_lt hx, UInt64.ofNat_toNat]

theorem put16_get16 (o : ByteOrder) {bytes : List UInt8} (h : bytes.length = 2) :
    o.put16 (o.get16 bytes) = bytes := by
  have hlt : o.get bytes < 2 ^ 16 := by simpa [h] using o.get_lt bytes
  rw [put16, get16, UInt16.toNat_ofNat', Nat.mod_eq_of_lt hlt, ← h, put_get]

theorem put32_get32 (o : ByteOrder) {bytes : List UInt8} (h : bytes.length = 4) :
    o.put32 (o.get32 bytes) = bytes := by
  have hlt : o.get bytes < 2 ^ 32 := by simpa [h] using o.get_lt bytes
  rw [put32, get32, UInt32.toNat_ofNat', Nat.mod_eq_of_lt hlt, ← h, put_get]

/-- Two words stored as the same bytes are the same word. -/
theorem put32_injective (o : ByteOrder) : Function.Injective o.put32 := by
  intro x y h
  rw [← get32_put32 o x, ← get32_put32 o y, h]

/-- The value of a two-byte load, spelled out for each order. -/
theorem get16_toNat (o : ByteOrder) (a b : UInt8) :
    (o.get16 [a, b]).toNat =
      match o with
      | little => a.toNat + 256 * b.toNat
      | big => b.toNat + 256 * a.toNat := by
  have ha : a.toNat < 256 := a.toNat_lt
  have hb : b.toNat < 256 := b.toNat_lt
  cases o <;>
    simp only [get16, get, ofLowBytes, List.reverse_cons, List.reverse_nil, List.nil_append,
      List.cons_append, UInt16.toNat_ofNat'] <;>
    omega

end ByteOrder

end AiInterceptor.Lib
