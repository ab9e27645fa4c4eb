import Octet.Ty

/-!
# Refused listings

Every way in which a listing is no program, with what is needed to say where, and the wording.

## Main definitions

* `Listing.OperandError`, `Listing.EntryError`, `Listing.Error` — causes, from the inside out
* `Listing.Error.message` — the wording of a refusal
-/

namespace Octet.Listing

/-- Why the text of an operand is refused. -/
inductive OperandError where
  | missing
  | badString (text : String)
  | badType (error : TypeError)
  | badOffset (text : String)
  | undeclared (name : String)
  | notPointer (name : String)
  | noByte (name part : String)
  | unknownByte (name part : String)
  deriving DecidableEq, Repr

/-- The wording of a refused operand. -/
def OperandError.message : OperandError → String
  | missing => "missing operand"
  | badString text => "bad string " ++ text ++ ": invalid syntax"
  | badType error => error.message
  | badOffset text => "bad offset " ++ Text.quote text
  | undeclared name => "undeclared variable " ++ Text.quote name
  | notPointer name => name ++ " is not a pointer"
  | noByte name part => name ++ " has no " ++ part ++ " byte"
  | unknownByte name part => "unknown byte " ++ Text.quote part ++ " of " ++ name

/-- Why an instruction is refused. -/
inductive EntryError where
  | operand (error : OperandError)
  | labelTwice (label : String)
  | unknownOperator (name : String)
  | labelOperator
  | missingTarget
  | missingValue (type : Ty)
  | unknownCondition (name : String)
  | unknownCallee (name : String)
  | arity (callee : String) (expected given : Nat)
  | noResult (callee : String)
  deriving DecidableEq, Repr

/-- The wording of a refused instruction. -/
def EntryError.message : EntryError → String
  | operand error => error.message
  | labelTwice label => "label " ++ label ++ " defined twice"
  | unknownOperator name => "unknown operator " ++ Text.quote name
  | labelOperator => "use the label key to define labels"
  | missingTarget => "missing target"
  | missingValue type => "return needs a value of type " ++ type.text
  | unknownCondition name => "unknown condition " ++ Text.quote name
  | unknownCallee name => "call to undeclared " ++ Text.quote name
  | arity callee expected given =>
    callee ++ " takes " ++ toString expected ++ " arguments, got " ++ toString given
  | noResult callee => callee ++ " returns no value"

/-- Why a listing is refused. -/
inductive Error where
  | badGlobal (name : String) (error : TypeError)
  | badResult (function : String) (error : TypeError)
  | badParameter (function parameter : String) (error : TypeError)
  | cannotPass (function parameter : String) (type : Ty)
  | functionTwice (function : String)
  | variableTwice (function name : String)
  | badVariable (function name : String) (error : TypeError)
  | badEntry (function : String) (position : Nat) (error : EntryError)
  | undefinedLabel (function label : String)
  deriving DecidableEq, Repr

/-- The wording of a refused listing. -/
def Error.message : Error → String
  | badGlobal name error => "global " ++ name ++ ": " ++ error.message
  | badResult function error => "function " ++ function ++ " result: " ++ error.message
  | badParameter function parameter error =>
    "function " ++ function ++ " parameter " ++ parameter ++ ": " ++ error.message
  | cannotPass function parameter type =>
    "function " ++ function ++ " parameter " ++ parameter ++ ": cannot pass " ++ type.text
  | functionTwice function => "function " ++ function ++ " declared twice"
  | variableTwice function name =>
    "function " ++ function ++ ": variable " ++ name ++ " declared twice"
  | badVariable function name error =>
    "function " ++ function ++ " variable " ++ name ++ ": " ++ error.message
  | badEntry function position error =>
    "function " ++ function ++ ", instruction " ++ toString position ++ ": " ++ error.message
  | undefinedLabel function label =>
    "function " ++ function ++ ": label " ++ label ++ " is never defined"

end Octet.Listing
