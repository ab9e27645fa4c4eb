/-!
# Integers as machine words

The compiler computes with signed integers of 64 bits and looks at them bit by bit. Values are kept
as `Int`; this module gives the two's complement reading of an `Int` (bitwise connectives and single
bits), the reduction to 64 bits, and the value of a truncated word with or without its sign.

Masking with `2 ^ n - 1` is the Euclidean remainder modulo `2 ^ n`, so it is written as `low n` and
needs no bitwise connective.

## Main definitions

* `Bits.and`, `Bits.or`, `Bits.xor`, `Bits.not` — connectives on two's complement integers
* `Bits.shl`, `Bits.shr` — shifts
* `Bits.low`, `Bits.test` — the value of the lowest bits, and a single bit
* `Bits.wrap`, `Bits.shifted` — reduction to 64 bits, and one shifted left in 64 bits
* `Bits.count?` — how many bits some bytes are, in a count of 64 bits
* `Bits.read` — a value truncated to some bits and read with or without a sign
* `normalize`, `normalize?` — the same for a width in bytes, which may be out of bounds
-/

namespace Octet

namespace Bits

/-- Bitwise complement in two's complement. -/
def not (a : Int) : Int := -a - 1

/-- Bitwise conjunction in two's complement. -/
def and : Int → Int → Int
  | .ofNat m, .ofNat n => .ofNat (m &&& n)
  | .ofNat m, .negSucc n => .ofNat (m ^^^ (m &&& n))
  | .negSucc m, .ofNat n => .ofNat (n ^^^ (n &&& m))
  | .negSucc m, .negSucc n => .negSucc (m ||| n)

/-- Bitwise disjunction in two's complement. -/
def or (a b : Int) : Int := not (and (not a) (not b))

/-- Bitwise exclusive disjunction in two's complement. -/
def xor (a b : Int) : Int := and (or a b) (not (and a b))

/-- How many values `n` bits can have. -/
def modulus (n : Nat) : Nat := 1 <<< n

/-- An integer shifted to the left, without a bound. -/
def shl (a : Int) (n : Nat) : Int := a * modulus n

/-- An integer shifted to the right, which keeps its sign. -/
def shr (a : Int) (n : Nat) : Int := a >>> n

/-- The value of the lowest `n` bits. -/
def low (n : Nat) (a : Int) : Int := a % modulus n

/-- Bit `n` of a two's complement integer. -/
def test (n : Nat) (a : Int) : Bool := shr a n % 2 == 1

/-- Reduction to a signed integer of 64 bits. -/
def wrap (a : Int) : Int := a.bmod (modulus 64)

/-- One shifted left by `n` places in 64 bits: zero once it has left the word. -/
def shifted (n : Nat) : Int := if n < 64 then wrap (modulus n) else 0

/-- **How many bits some bytes are.** The count is itself an integer of 64 bits: a width whose bits
do not fit is taken modulo `2 ^ 64`, and there is no count if that leaves it below zero. -/
def count? (width : Int) : Option Nat := (wrap (8 * width)).toNat?

/-- **Truncation with a sign.** The lowest `bits` bits of `v`, read as a signed number when `signed`
is set. From 64 bits on nothing is cut off. -/
def read (bits : Nat) (signed : Bool) (v : Int) : Int :=
  let v := if bits < 64 then low bits v else v
  if signed && shifted (bits - 1) ≤ v then v - shifted bits else v

/-- A flag as a number. -/
def ofBool (b : Bool) : Int := if b then 1 else 0

end Bits

/-- The lowest `width` bytes of `v`, read as a signed number when `signed` is set. -/
def normalize (v : Int) (signed : Bool) (width : Nat) : Int := Bits.read (8 * width) signed v

/-- Truncation to a width that may be out of bounds. A value without bits has no sign to read. -/
def normalize? (v : Int) (signed : Bool) (width : Int) : Option Int := do
  let bits ← Bits.count? width
  if signed && bits == 0 then none else some (Bits.read bits signed v)

end Octet
