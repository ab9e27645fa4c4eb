import Octet.Assembly

/-!
# The ledger of a compilation

What outlives a single function: the number of labels generated, the names of the functions defined,
the names that are used and defined elsewhere, and the memory cells asked for. Cells are kept by
name; a cell that is asked for again grows to the larger size. String literals are cells with
contents; they are only ever added, and are not found by name.

## Main definitions

* `Ledger`, `Ledger.freshLabel`, `Ledger.reserve`, `Ledger.reference`, `Ledger.addString`
-/

namespace Octet

open Assembly

/-- What has been accumulated over a compilation. -/
structure Ledger where
  labels : Nat
  defined : List String
  externals : List String
  cells : List Cell
  deriving DecidableEq, Repr

namespace Ledger

/-- The ledger before the first function. -/
def empty : Ledger := ⟨0, [], [], []⟩

/-- A label that was not used before. -/
def freshLabel (l : Ledger) : String × Ledger :=
  ("_L" ++ toString (l.labels + 1), { l with labels := l.labels + 1 })

/-- The ledger with a cell of at least some size. -/
def reserve (l : Ledger) (name : String) (size : Int) (segment : Segment) : Ledger :=
  if l.cells.any fun c => c.name == name && c.init.isEmpty then
    { l with cells := l.cells.map fun c =>
        if c.name == name && c.init.isEmpty then { c with size := max c.size size } else c }
  else { l with cells := l.cells ++ [⟨name, size, [], segment⟩] }

/-- The ledger with a string literal, which ends with a zero byte. -/
def addString (l : Ledger) (name : String) (value : List UInt8) : Ledger :=
  { l with cells := l.cells ++ [⟨name, 0, value ++ [0], .readOnly⟩] }

/-- The ledger after a name was used: unless it is defined, it is one defined elsewhere. -/
def reference (l : Ledger) (name : String) : Ledger :=
  if l.defined.contains name || l.externals.contains name then l
  else { l with externals := l.externals ++ [name] }

/-- The ledger with one more function defined. -/
def define (l : Ledger) (name : String) : Ledger :=
  if l.defined.contains name then l else { l with defined := l.defined ++ [name] }

end Ledger

end Octet
