import Octet.Bits

/-!
# What the runtime routines compute

Shifts by a count that is not known in advance, products and ordered comparisons are left to
routines that generated code calls. This module says what they compute on integers; the processors
say in which registers they find their operands.

A width counts bytes. Their number of bits is an integer of 64 bits; if it comes out below zero it
means nothing, and neither does the sign of a value without any bits, so shifts and products are
partial.

## Main definitions

* `shift?` — a value shifted by a count, of which a byte is looked at
* `multiply?` — a truncated product
* `less` — an ordered comparison of words
-/

namespace Octet.Simulator

/-- The lowest `bits` bits; from 64 bits on nothing is cut off. -/
def truncate (bits : Nat) (v : Int) : Int := if bits < 64 then Bits.low bits v else Bits.wrap v

/-- A value of `bits` bits read with its sign. -/
def withSign (bits : Nat) (v : Int) : Int :=
  if bits ≤ 64 && Bits.test (bits - 1) v then v - Bits.shifted bits else v

/-- **A shift** of a value of some bits. A count of that many or more shifts everything out. -/
def shiftBits (bits : Nat) (value count : Int) (left signed : Bool) : Int :=
  let value := truncate bits value
  let count := (Bits.low 8 count).toNat
  if left then if bits ≤ count then 0 else truncate bits (Bits.shl value count)
  else if signed then truncate bits (Bits.shr (withSign bits value) (min count bits))
  else if bits ≤ count then 0 else Bits.shr value count

/-- A shift of a value of `width` bytes. -/
def shift (value count : Int) (width : Nat) (left signed : Bool) : Int :=
  shiftBits (8 * width) value count left signed

/-- A shift of a value of a width that may be out of bounds. -/
def shift? (value count width : Int) (left signed : Bool) : Option Int := do
  let bits ← Bits.count? width
  if !left && signed && bits == 0 then none else some (shiftBits bits value count left signed)

/-- **A product** of `width` bytes. -/
def multiply (a b : Int) (width : Nat) : Int := truncate (8 * width) (a * b)

/-- A product of a width that may be out of bounds. -/
def multiply? (a b width : Int) : Option Int := return truncate (← Bits.count? width) (a * b)

/-- **An ordered comparison** of two words. -/
def less (a b : Int) (signed : Bool) : Bool := normalize a signed 2 < normalize b signed 2

end Octet.Simulator
