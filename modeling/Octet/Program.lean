import Octet.Fault
import Octet.LiveRange
import Octet.Operator
import Octet.Ty

/-!
# Programs

A program has global variables, string literals, the signatures of external routines, and functions.
A function has parameters, variables and three-address code. Its instructions are numbered from one;
the address zero is the entry, where the parameters arrive.

Operands refer to variables by value. A variable carries its position among the variables of its
scope, so two operands mean the same variable exactly when the values are equal.

## Main definitions

* `Variable`, `Parameter`, `Signature` — what a program declares
* `Operand`, `Operand.byteAt` — what an instruction reads or writes, and the bytes of it
* `Inst`, `Inst.operands`, `Inst.text` — instructions
* `Function`, `Program` — functions with their live ranges, and compilation units
-/

namespace Octet

/-- A parameter of a function. The slot is the memory symbol it travels in when no register is
left. -/
structure Parameter where
  index : Nat
  name : String
  type : Ty
  slot : String
  deriving DecidableEq, Repr

/-- What a caller knows of a function. -/
structure Signature where
  name : String
  params : List Parameter
  result : Ty
  deriving DecidableEq, Repr

/-- A variable of a program. -/
structure Variable where
  /-- The position among the variables of its scope. -/
  index : Nat
  /-- Whether the variable is global. -/
  isStatic : Bool
  name : String
  /-- The memory symbol of the variable. -/
  label : String
  type : Ty
  /-- The parameter whose value the variable receives. -/
  parameter : Option Nat
  deriving DecidableEq, Repr

/-- A jump target. -/
structure Anchor where
  name : String
  deriving DecidableEq, Repr

/-- What an instruction reads or writes. -/
inductive Operand where
  /-- A constant. -/
  | int (type : Ty) (value : Int)
  /-- A variable, or the part of it that starts at an offset. -/
  | var (v : Variable) (offset : Int) (type : Ty)
  /-- The memory at an offset behind a pointer variable. -/
  | deref (pointer : Variable) (offset : Int) (type : Ty)
  /-- The address of a symbol, plus an offset. -/
  | address (symbol : String) (offset : Int) (target : Ty)
  /-- The address of a string literal. -/
  | string (label : String) (value : List UInt8)
  /-- One byte of the address of a symbol, plus an offset. -/
  | addressByte (symbol : String) (offset : Int) (high : Bool)
  deriving DecidableEq, Repr

namespace Operand

/-- The operand that is a whole variable. -/
def whole (v : Variable) : Operand := var v 0 v.type

/-- The type of an operand. -/
def type : Operand → Ty
  | int t _ => t
  | var _ _ t => t
  | deref _ _ t => t
  | address _ _ target => .pointer target
  | string .. => .pointer (.byte false)
  | addressByte .. => .byte false

/-- The variable an operand reads, writes or goes through. -/
def mentioned? : Operand → Option Variable
  | var v .. => some v
  | deref p .. => some p
  | _ => none

/-- The variable that an operand is, or is a part of. -/
def direct? : Operand → Option Variable
  | var v .. => some v
  | _ => none

/-- The pointer variable that an operand goes through. -/
def pointer? : Operand → Option Variable
  | deref p .. => some p
  | _ => none

/-- Whether the operand is a constant. -/
def isConstant : Operand → Bool
  | int .. => true
  | _ => false

/-- An operand as it is shown. -/
def text : Operand → String
  | int _ value => toString value
  | var v offset t =>
    if offset == 0 then
      if t.byteCount == v.type.byteCount then v.name else v.name ++ ".lo"
    else if offset == 1 then v.name ++ ".hi"
    else v.name ++ "+" ++ toString offset
  | deref p offset _ =>
    if offset == 0 then "*" ++ p.name else "*" ++ p.name ++ "+" ++ toString offset
  | address symbol offset _ =>
    if offset == 0 then "&" ++ symbol else "&" ++ symbol ++ "+" ++ toString offset
  | string _ value => Text.quoteBytes value
  | addressByte symbol offset high =>
    let part := if high then ">" else "<"
    if offset == 0 then part ++ symbol
    else part ++ "(" ++ symbol ++ "+" ++ toString offset ++ ")"

/-- **One byte of an operand.** The high byte of a signed operand is signed. A byte of an address
has no bytes of its own. -/
def byteAt (o : Operand) (offset : Nat) : Except Fault Operand :=
  let t : Ty := .byte (o.type.signed && offset == 1)
  match o with
  | int _ value => .ok (int t (Bits.low 8 (Bits.shr value (8 * offset))))
  | var v start _ => .ok (var v (Bits.wrap (start + offset)) t)
  | deref p start _ => .ok (deref p (Bits.wrap (start + offset)) t)
  | address symbol start _ => .ok (addressByte symbol start (offset == 1))
  | string label _ => .ok (addressByte label 0 (offset == 1))
  | addressByte .. => .error (.noByte offset o.text)

/-- Whether two operands are the same place. -/
def sameStorage : Operand → Operand → Bool
  | var v a t, var w b u => v == w && a == b && t.byteCount == u.byteCount
  | deref v a t, deref w b u => v == w && a == b && t.byteCount == u.byteCount
  | _, _ => false

end Operand

/-- A three-address instruction. -/
inductive Inst where
  /-- The place a jump goes to. -/
  | label (anchor : Anchor)
  /-- `dest = source`. -/
  | load (dest source : Operand)
  /-- `dest = left op right`. -/
  | binary (op : BinaryOp) (dest left right : Operand)
  /-- `dest = op source`. -/
  | unary (op : UnaryOp) (dest source : Operand)
  /-- `dest = source`, converted to the width of `dest`. -/
  | resize (dest source : Operand)
  /-- Continue at `target`. -/
  | jump (target : Anchor)
  /-- Continue at `target` if `left cond right`. -/
  | compare (cond : Cond) (left right : Operand) (target : Anchor)
  /-- Decrement `counter` and continue at `target` unless it is zero. -/
  | decJump (counter : Operand) (target : Anchor)
  /-- `dest = callee(args)`. -/
  | call (callee : Signature) (args : List Operand) (dest : Option Operand)
  /-- Leave the function. -/
  | ret (value : Option Operand)
  deriving DecidableEq, Repr

namespace Inst

/-- The operator of an instruction. -/
def operator : Inst → Operator
  | label _ => .label
  | load .. => .load
  | binary op .. => .binary op
  | unary op .. => .unary op
  | resize .. => .resize
  | jump _ => .jump
  | compare .. => .compare
  | decJump .. => .decJump
  | call .. => .call
  | ret _ => .ret

/-- The operand that is written. -/
def dest? : Inst → Option Operand
  | load d _ => some d
  | binary _ d .. => some d
  | unary _ d _ => some d
  | resize d _ => some d
  | decJump d _ => some d
  | call _ _ d => d
  | _ => none

/-- The first operand that is read. -/
def left? : Inst → Option Operand
  | load _ s => some s
  | binary _ _ l _ => some l
  | unary _ _ s => some s
  | resize _ s => some s
  | compare _ l .. => some l
  | ret v => v
  | _ => none

/-- The second operand that is read. -/
def right? : Inst → Option Operand
  | binary _ _ _ r => some r
  | compare _ _ r _ => some r
  | _ => none

/-- The arguments of a call. -/
def args : Inst → List Operand
  | call _ as _ => as
  | _ => []

/-- Every operand that the instruction mentions. -/
def operands (i : Inst) : List Operand :=
  i.dest?.toList ++ i.left?.toList ++ i.right?.toList ++ i.args

/-- The anchor that the instruction places or may go to. -/
def anchor? : Inst → Option Anchor
  | label a => some a
  | jump a => some a
  | compare _ _ _ a => some a
  | decJump _ a => some a
  | _ => none

/-- The anchor that the instruction may go to. -/
def target? : Inst → Option Anchor
  | jump a => some a
  | compare _ _ _ a => some a
  | decJump _ a => some a
  | _ => none

/-- Whether control may reach the next instruction. -/
def fallsThrough : Inst → Bool
  | jump _ => false
  | ret _ => false
  | _ => true

/-- An instruction as it is shown. -/
def text : Inst → String
  | label a => a.name ++ ":"
  | load d s => d.text ++ " = " ++ s.text
  | binary op d l r => d.text ++ " = " ++ l.text ++ " " ++ op.symbol ++ " " ++ r.text
  | unary .neg d s => d.text ++ " = -" ++ s.text
  | unary .complement d s => d.text ++ " = ~" ++ s.text
  | resize d s => d.text ++ " = (" ++ d.type.text ++ ")" ++ s.text
  | jump a => "goto " ++ a.name
  | compare c l r a => "if " ++ l.text ++ " " ++ c.symbol ++ " " ++ r.text ++ " goto " ++ a.name
  | decJump d a => "if --" ++ d.text ++ " != 0 goto " ++ a.name
  | call callee as d =>
    let head := match d with
      | some d => d.text ++ " = "
      | none => ""
    head ++ callee.name ++ "(" ++ ", ".intercalate (as.map (·.text)) ++ ")"
  | ret (some v) => "return " ++ v.text
  | ret none => "return"

end Inst

/-- A function, with the live range of every variable. -/
structure Function where
  name : String
  params : List Parameter
  result : Ty
  vars : List Variable
  code : List Inst
  /-- The live ranges, in the order of the variables. -/
  ranges : List LiveRange
  deriving DecidableEq, Repr

namespace Function

/-- What callers know of the function. -/
def signature (f : Function) : Signature := ⟨f.name, f.params, f.result⟩

/-- The instruction at an address; none at the entry or beyond the code. -/
def at? (f : Function) (address : Nat) : Option Inst :=
  match address with
  | 0 => none
  | n + 1 => f.code[n]?

/-- The address at which an anchor is placed, or zero. -/
def addressOf (f : Function) (a : Anchor) : Nat :=
  match f.code.findIdx? (· == .label a) with
  | some i => i + 1
  | none => 0

/-- The variable that receives a parameter. -/
def parameterVariable? (f : Function) (p : Parameter) : Option Variable :=
  f.vars.find? (·.parameter == some p.index)

/-- The live range of a variable. Global variables have none. -/
def range (f : Function) (v : Variable) : LiveRange :=
  if v.isStatic then .empty else f.ranges.getD v.index .empty

/-- The variables whose live ranges intersect that of `v`. -/
def intersections (f : Function) (v : Variable) : List Variable :=
  f.vars.filter fun w => w != v && (f.range v).intersects (f.range w)

end Function

/-- A compilation unit. -/
structure Program where
  globals : List Variable
  /-- The string literals, each with its label. -/
  strings : List (String × List UInt8)
  externs : List Signature
  functions : List Function
  deriving DecidableEq, Repr

end Octet
