/-!
# Faults

Building code can break off. Most faults are broken invariants of the code generator: they carry
what is needed to name the place, and `Fault.message` words them. Two are of another kind. An
operand may be one that no code is generated for, which is a refusal and not a broken invariant. And
a value may be needed that does not exist, such as the half of a register that has no halves; such a
fault has no wording.

## Main definitions

* `Fault`, `Fault.message` — causes and their wording
-/

namespace Octet

/-- Why building code breaks off. -/
inductive Fault where
  /-- A value was needed that does not exist. -/
  | absent
  /-- A signed byte in a word operation, which has to be widened first. -/
  | unsupportedOperand (operand : String)
  /-- A byte was taken of a byte of an address. -/
  | noByte (offset : Int) (operand : String)
  /-- Parallel moves block each other although none of them overwrites what another one reads. -/
  | blockedMoves
  | openReservations (count address : Nat)
  | releaseOrder (register : String) (address : Nat)
  | noRegister (candidates : List String) (address : Nat)
  | noInverse (mnemonic : String)
  | badLoad (place : String)
  | badStore (place : String)
  | noDirectOperand (place : String)
  | stepStopped (place : String) (count : Nat)
  | noAccumulatorForm (operator : String)
  | cannotShift (register : String)
  | cannotSave (machine register : String)
  | noOperandForm (machine place : String)
  deriving DecidableEq, Repr

namespace Fault

/-- The wording of a fault; a missing value has none. -/
def message : Fault → String
  | absent => ""
  | unsupportedOperand operand =>
    "not implemented: signed byte operand " ++ operand ++ " in a word operation"
  | noByte offset operand => "ir: no byte " ++ toString offset ++ " of operand " ++ operand
  | blockedMoves => "regalloc: invariant: parallel moves blocked without a cycle"
  | openReservations count address =>
    "codegen: invariant: " ++ toString count ++ " reservations open at end of instruction " ++
      toString address
  | releaseOrder register address =>
    "codegen: invariant: reservation of " ++ register ++ " released out of order at " ++
      toString address
  | noRegister candidates address =>
    "codegen: invariant: no register among [" ++ " ".intercalate candidates ++ "] at " ++
      toString address
  | noInverse mnemonic => "codegen: invariant: no inverse of branch " ++ mnemonic
  | badLoad place => "codegen: invariant: load from " ++ place
  | badStore place => "codegen: invariant: store to " ++ place
  | noDirectOperand place => "codegen: invariant: no direct operand for " ++ place
  | stepStopped place count =>
    "codegen: invariant: step of " ++ place ++ " stopped after " ++ toString count
  | noAccumulatorForm operator => "codegen: invariant: no accumulator form of " ++ operator
  | cannotShift register => "codegen: invariant: cannot shift work register " ++ register
  | cannotSave machine register => machine ++ ": invariant: cannot save " ++ register
  | noOperandForm machine place => machine ++ ": invariant: no operand form of " ++ place

end Fault

end Octet
