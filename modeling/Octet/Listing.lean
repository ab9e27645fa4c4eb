/-!
# Listings

A listing is a program as it is written down: declarations by name, types by name, and instructions
whose operands are text. A field that is left out is the empty text.

## Main definitions

* `Listing`, `Listing.Declaration`, `Listing.Routine`, `Listing.Entry`
-/

namespace Octet

namespace Listing

/-- A variable or a parameter. -/
structure Declaration where
  name : String := ""
  type : String := ""
  deriving DecidableEq, Repr, Inhabited

/-- One instruction. A label only has a label. -/
structure Entry where
  label : String := ""
  op : String := ""
  dest : String := ""
  left : String := ""
  right : String := ""
  cond : String := ""
  target : String := ""
  callee : String := ""
  args : List String := []
  deriving DecidableEq, Repr, Inhabited

/-- A function, or an external routine, of which only the signature counts. -/
structure Routine where
  name : String := ""
  params : List Declaration := []
  result : String := ""
  vars : List Declaration := []
  code : List Entry := []
  deriving DecidableEq, Repr, Inhabited

end Listing

/-- A program as it is written down. -/
structure Listing where
  globals : List Listing.Declaration := []
  externs : List Listing.Routine := []
  functions : List Listing.Routine := []
  deriving DecidableEq, Repr, Inhabited

end Octet
