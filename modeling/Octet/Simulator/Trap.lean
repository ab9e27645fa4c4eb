import Octet.Assembly
import Octet.Text.Numeral

/-!
# Traps and failures

An instruction that cannot be executed *traps*: its mnemonic, an operand or a name it refers to
means nothing to the processor, or a function returns with its stack out of balance. A run *fails*
when one of its instructions traps, and also when control leaves the code, when there is nothing of
the name that is called first, and when too many instructions have been executed.

An access outside of memory and an operand that is missing altogether are traps without a wording.

## Main definitions

* `Trap`, `Trap.message` — why an instruction stops
* `Failure`, `Failure.message` — why a run stops
-/

namespace Octet

namespace Assembly

/-- The form of an operand, as messages name it. -/
def Arg.form : Arg → String
  | imm _ => "asm.Imm"
  | symbol _ _ _ => "asm.ImmSym"
  | reg _ => "asm.Reg"
  | mem _ _ => "asm.Mem"
  | ind _ _ => "asm.Ind"
  | label _ => "asm.Ref"

/-- The number of a part of an address. -/
def Part.index : Part → Nat
  | whole => 0
  | low => 1
  | high => 2

/-- The contents of an operand, as messages show them: several of them between braces. -/
def Arg.contents : Arg → String
  | imm v => toString v
  | symbol name offset part =>
    "\x7b" ++ name ++ " " ++ toString offset ++ " " ++ toString part.index ++ "\x7d"
  | reg name => name
  | mem name offset => "\x7b" ++ name ++ " " ++ toString offset ++ "\x7d"
  | ind name index => "\x7b" ++ name ++ " " ++ index ++ "\x7d"
  | label name => name

end Assembly

namespace Simulator

/-- Why an instruction cannot be executed. -/
inductive Trap where
  /-- An operand is missing, or a byte outside of memory was accessed. -/
  | absent
  | unknownMnemonic (op : String)
  | notMemory (arg : Assembly.Arg)
  | notRegister (arg : Assembly.Arg)
  | notValue (arg : Assembly.Arg)
  | unknownRegister (name : String)
  | unknownPair (arg : Assembly.Arg)
  | unknownLabel (label function : String)
  | unknownCallee (name : String)
  /-- A function returned with another stack pointer than it was entered with. -/
  | unbalanced (function : String) (left entered : Int)
  deriving DecidableEq, Repr

/-- The wording of a trap; a missing value has none. -/
def Trap.message : Trap → String
  | absent => ""
  | unknownMnemonic op => "mnemonic " ++ op ++ ": unknown"
  | notMemory arg => "operand " ++ arg.form ++ " is not memory"
  | notRegister arg => "operand " ++ arg.form ++ " is not a register"
  | notValue arg => "operand " ++ arg.form ++ " is not a value"
  | unknownRegister name => "register " ++ name ++ ": unknown"
  | unknownPair arg => "register pair " ++ arg.contents ++ ": unknown"
  | unknownLabel label function => "label " ++ label ++ " in " ++ function ++ ": unknown"
  | unknownCallee name => "call " ++ name ++ ": unknown"
  | unbalanced function left entered =>
    function ++ " returned with stack pointer " ++ Text.hexText left ++ ", entered with " ++
      Text.hexText entered

/-- Whether a trap is about a name that means nothing. -/
def Trap.isUnknown : Trap → Bool
  | unknownMnemonic _ | unknownRegister _ | unknownPair _ | unknownLabel _ _ | unknownCallee _ => true
  | _ => false

/-- Why a run stops without having returned. -/
inductive Failure where
  /-- The name that the run starts with cannot be called. -/
  | notStarted (trap : Trap)
  /-- An instruction trapped, in a line of a function. -/
  | trapped (function : String) (line : Nat) (op : String) (trap : Trap)
  /-- Control left the code of a function at its end. -/
  | ranOff (function : String)
  /-- More instructions were executed than allowed. -/
  | stepLimit (name : String)
  deriving DecidableEq, Repr

namespace Failure

/-- The wording of a failure. -/
def message : Failure → String
  | notStarted trap => trap.message
  | trapped function line op trap =>
    function ++ "+" ++ toString line ++ " " ++ op ++ ": " ++ trap.message
  | ranOff function => function ++ ": ran past the last instruction"
  | stepLimit name => name ++ ": step limit exceeded"

/-- The trap behind a failure, if there is one. -/
def trap? : Failure → Option Trap
  | notStarted trap => some trap
  | trapped _ _ _ trap => some trap
  | _ => none

end Failure

end Simulator

end Octet
