import Octet.Bits

/-!
# Assembly programs

Assembly keeps the operands of its instructions as values, so that the same lines can be written in
the dialect of an assembler, looked up in a table of effects, or executed.

## Main definitions

* `Assembly.Arg`, `Assembly.Instr`, `Assembly.Line` — operands, instructions and lines
* `Assembly.Cell`, `Assembly.Segment` — data, and where it is placed
* `Assembly` — a program: routines, cells and the names defined elsewhere
-/

namespace Octet

namespace Assembly

/-- Which bytes of an address are meant. -/
inductive Part where
  | whole
  | low
  | high
  deriving DecidableEq, Repr

/-- An operand of an instruction. -/
inductive Arg where
  /-- A constant. -/
  | imm (value : Int)
  /-- The address of a symbol, or one byte of it. -/
  | symbol (name : String) (offset : Int) (part : Part)
  /-- A register. -/
  | reg (name : String)
  /-- The memory at a symbol. -/
  | mem (symbol : String) (offset : Int)
  /-- The memory behind the pointer held at a symbol, indexed by a register if one is named. -/
  | ind (symbol : String) (index : String)
  /-- The label that a jump or a call goes to. -/
  | label (name : String)
  deriving DecidableEq, Repr

/-- A machine instruction. -/
structure Instr where
  op : String
  args : List Arg
  deriving DecidableEq, Repr

/-- A line of code. -/
inductive Line where
  | label (name : String)
  | comment (text : String)
  | instr (i : Instr)
  deriving DecidableEq, Repr

/-- Where code and data are placed. -/
inductive Segment where
  | code
  | data
  | readOnly
  | zeroPage
  deriving DecidableEq, Repr

/-- The segments by number. -/
def Segment.all : List Segment := [code, data, readOnly, zeroPage]

/-- The number of a segment. -/
def Segment.index (s : Segment) : Nat := all.findIdx (· == s)

/-- A named piece of data: initial bytes, or else some bytes that are only reserved. -/
structure Cell where
  name : String
  size : Int
  init : List UInt8
  segment : Segment
  deriving DecidableEq, Repr

/-- The code of a function. -/
structure Routine where
  name : String
  code : List Line
  deriving DecidableEq, Repr

/-- A symbol with an offset. -/
def addressText (symbol : String) (offset : Int) : String :=
  if 0 < offset then symbol ++ "+" ++ toString offset
  else if offset < 0 then symbol ++ "-" ++ toString (Bits.wrap (-offset))
  else symbol

end Assembly

/-- An assembly program. -/
structure Assembly where
  functions : List Assembly.Routine
  cells : List Assembly.Cell
  externals : List String
  deriving DecidableEq, Repr

namespace Assembly

/-- The first cell with a name. -/
def cell? (p : Assembly) (name : String) : Option Cell := p.cells.find? (·.name == name)

/-- The first function with a name. -/
def function? (p : Assembly) (name : String) : Option Routine :=
  p.functions.find? (·.name == name)

end Assembly

end Octet
