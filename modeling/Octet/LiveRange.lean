import Octet.Bits

/-!
# Live ranges

A live range spans the addresses at which the value of a variable may still be needed. It has the
addresses of the instructions that mention the variable, in ascending order, and possibly an extent
that widens the range beyond them. A range without mentions and without extent is empty; both its
ends are `-1` then.

Two ranges *intersect* when they overlap. A range that ends at the very address where another one
begins hands the register over: the old value is read before the new one is written, and the two do
not intersect.

## Main definitions

* `LiveRange.first`, `LiveRange.last`, `LiveRange.length` — the ends of a range and their distance
* `LiveRange.liveAt`, `LiveRange.liveThrough` — membership, with and without the ends
* `LiveRange.extend`, `LiveRange.intersects` — widening and overlap
-/

namespace Octet

/-- The addresses at which the value of a variable may be needed. -/
structure LiveRange where
  /-- The addresses of the instructions that mention the variable. -/
  usages : List Int
  /-- What the range covers beyond the mentions. -/
  extent : Option (Int × Int)
  deriving DecidableEq, Repr

namespace LiveRange

/-- The range of a variable that is never mentioned. -/
def empty : LiveRange := ⟨[], none⟩

instance : Inhabited LiveRange := ⟨empty⟩

/-- The first address of the range, or `-1`. -/
def first (r : LiveRange) : Int :=
  let mention := r.usages.headD (-1)
  match r.extent with
  | some (lo, _) => if mention < 0 || lo < mention then lo else mention
  | none => mention

/-- The last address of the range, or `-1`. -/
def last (r : LiveRange) : Int :=
  let mention := r.usages.getLastD (-1)
  match r.extent with
  | some (_, hi) => max hi mention
  | none => mention

/-- The distance between the two ends. -/
def length (r : LiveRange) : Int := if r.first < 0 then 0 else Bits.wrap (r.last - r.first)

/-- Whether the value exists before the address and is needed after it. -/
def liveThrough (r : LiveRange) (address : Int) : Bool := r.first < address && address < r.last

/-- Whether the address lies in the range. -/
def liveAt (r : LiveRange) (address : Int) : Bool := r.first ≤ address && address ≤ r.last

/-- The range widened so as to cover two addresses and all between them. -/
def extend (r : LiveRange) (lo hi : Int) : LiveRange :=
  match r.extent with
  | none => { r with extent := some (lo, hi) }
  | some (lo', hi') => { r with extent := some (min lo' lo, max hi' hi) }

/-- Whether one range ends where the other one begins, and holds a value before. -/
def handsOver (r s : LiveRange) : Bool := r.last == s.first && r.first < r.last

/-- **Overlap.** The ranges share an address at which neither hands over to the other. -/
def intersects (r s : LiveRange) : Bool :=
  let lo := max r.first s.first
  let hi := min r.last s.last
  0 ≤ r.first && 0 ≤ s.first && (lo < hi || (lo == hi && !r.handsOver s && !s.handsOver r))

end LiveRange

end Octet
