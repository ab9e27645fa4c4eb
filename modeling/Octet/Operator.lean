import Octet.Bits

/-!
# Operators and conditions

The operators of three-address instructions, each with the name it has in a listing and its number,
and the six relations that a comparison tests.

## Main definitions

* `Operator`, `BinaryOp`, `UnaryOp` — operators, and the two families that compute a value
* `Cond`, `Cond.swap`, `Cond.holds` — relations, their exchange and their meaning
-/

namespace Octet

/-- Operators of two operands that compute a value. -/
inductive BinaryOp where
  | add
  | sub
  | and
  | or
  | xor
  | shl
  | shr
  | mul
  deriving DecidableEq, Repr

namespace BinaryOp

/-- The name of the operator in a listing. -/
def text : BinaryOp → String
  | add => "add"
  | sub => "sub"
  | and => "and"
  | or => "or"
  | xor => "xor"
  | shl => "shl"
  | shr => "shr"
  | mul => "mul"

/-- The operator as it stands between its operands. -/
def symbol : BinaryOp → String
  | add => "+"
  | sub => "-"
  | and => "&"
  | or => "|"
  | xor => "^"
  | shl => "<<"
  | shr => ">>"
  | mul => "*"

/-- Whether the operands may be exchanged. -/
def commutative : BinaryOp → Bool
  | add | and | or | xor | mul => true
  | sub | shl | shr => false

end BinaryOp

/-- Operators of one operand that compute a value. -/
inductive UnaryOp where
  | neg
  | complement
  deriving DecidableEq, Repr

/-- The operators of a listing. -/
inductive Operator where
  | label
  | load
  | binary (op : BinaryOp)
  | unary (op : UnaryOp)
  | resize
  | jump
  | compare
  | decJump
  | call
  | ret
  deriving DecidableEq, Repr

namespace Operator

/-- All operators by number. -/
def all : List Operator :=
  [label, load, binary .add, binary .sub, binary .and, binary .or, binary .xor, binary .shl,
    binary .shr, binary .mul, unary .neg, unary .complement, resize, jump, compare, decJump, call,
    ret]

/-- The name of the operator in a listing. -/
def text : Operator → String
  | label => "label"
  | load => "load"
  | binary op => op.text
  | unary .neg => "neg"
  | unary .complement => "not"
  | resize => "resize"
  | jump => "jump"
  | compare => "compare"
  | decJump => "decjump"
  | call => "call"
  | ret => "return"

/-- The number of an operator. -/
def index (op : Operator) : Nat := all.findIdx (· == op)

/-- The operator with a number, if there is one. -/
def ofIndex? (n : Int) : Option Operator := if 0 ≤ n then all[n.toNat]? else none

/-- The operator with a name, if there is one. -/
def parse? (name : String) : Option Operator := all.find? (·.text == name)

/-- The name shown for a number, also for one that no operator has. -/
def textOfIndex (n : Int) : String :=
  match ofIndex? n with
  | some op => op.text
  | none => "op(" ++ toString n ++ ")"

/-- The operator of two operands, if it is one. -/
def binary? : Operator → Option BinaryOp
  | binary op => some op
  | _ => none

/-- Whether the operands may be exchanged. -/
def commutative : Operator → Bool
  | binary op => op.commutative
  | _ => false

/-- Whether the operator may transfer control to a label. -/
def isJump : Operator → Bool
  | jump | compare | decJump => true
  | _ => false

end Operator

/-- The relation that a comparison tests. -/
inductive Cond where
  | eq
  | ne
  | lt
  | le
  | gt
  | ge
  deriving DecidableEq, Repr

namespace Cond

/-- All relations by number. -/
def all : List Cond := [eq, ne, lt, le, gt, ge]

/-- The name of a relation. -/
def text : Cond → String
  | eq => "eq"
  | ne => "ne"
  | lt => "lt"
  | le => "le"
  | gt => "gt"
  | ge => "ge"

/-- The relation as it stands between its operands. -/
def symbol : Cond → String
  | eq => "=="
  | ne => "!="
  | lt => "<"
  | le => "<="
  | gt => ">"
  | ge => ">="

/-- The number of a relation. -/
def index (c : Cond) : Nat := all.findIdx (· == c)

/-- The relation with a name or a symbol. -/
def parse? (s : String) : Option Cond := all.find? fun c => c.text == s || c.symbol == s

/-- The relation that holds of two values exactly when this one holds of them exchanged. -/
def swap : Cond → Cond
  | eq => eq
  | ne => ne
  | lt => gt
  | le => ge
  | gt => lt
  | ge => le

/-- Whether the relation is an order, and not equality or its opposite. -/
def isOrder : Cond → Bool
  | eq | ne => false
  | _ => true

/-- The relation on integers. -/
def relates (c : Cond) (a b : Int) : Bool :=
  match c with
  | eq => a == b
  | ne => a != b
  | lt => a < b
  | le => a ≤ b
  | gt => a > b
  | ge => a ≥ b

/-- The relation on two values of `width` bytes, read with or without a sign. -/
def holds (c : Cond) (a b : Int) (signed : Bool) (width : Nat) : Bool :=
  c.relates (normalize a signed width) (normalize b signed width)

/-- The relation on two values of a width that may be out of bounds. -/
def holds? (c : Cond) (a b : Int) (signed : Bool) (width : Int) : Option Bool :=
  return c.relates (← normalize? a signed width) (← normalize? b signed width)

end Cond

end Octet
