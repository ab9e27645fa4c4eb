import Octet.Text.Numeral
import Octet.Text.Quoted

/-!
# Types

A value is a byte, a word, a pointer or an aggregate of some size. Bytes and words are signed or
not; pointers are unsigned words that remember what they point to. `void` is the type of no value.

A type is written by name: `void`, `byte`, `sbyte`, `word`, `sword`, `ptr:T` and `struct:N`. Two
abbreviations are read and never written: the empty name for `void`, and `ptr` for `ptr:byte`.

## Main definitions

* `Ty`, `Ty.byteCount`, `Ty.mask` — types, the bytes a value takes, and the mask of its bits
* `Ty.parse`, `Ty.text` — reading and writing a type by name
-/

namespace Octet

/-- The type of a variable or an operand. -/
inductive Ty where
  | void
  | byte (signed : Bool)
  | word (signed : Bool)
  | pointer (target : Ty)
  | struct (size : Nat)
  deriving DecidableEq, Repr, Inhabited

/-- Why a type name is refused. -/
inductive TypeError where
  | badSize (size : String)
  | unknown (name : String)
  deriving DecidableEq, Repr

namespace TypeError

/-- The wording of a refused type name. -/
def message : TypeError → String
  | .badSize size => "bad struct size " ++ Text.quote size
  | .unknown name => "unknown type " ++ Text.quote name

end TypeError

namespace Ty

/-- The bytes a value of the type takes. -/
def byteCount : Ty → Nat
  | void => 0
  | byte _ => 1
  | word _ => 2
  | pointer _ => 2
  | struct size => size

/-- Whether values are read with a sign. -/
def signed : Ty → Bool
  | byte s => s
  | word s => s
  | _ => false

/-- Whether values fit one byte register. -/
def isByte : Ty → Bool
  | byte _ => true
  | _ => false

/-- Whether values fit a word register: words and pointers. -/
def isWord : Ty → Bool
  | word _ => true
  | pointer _ => true
  | _ => false

/-- Whether the type is a pointer of any kind. -/
def isPointer : Ty → Bool
  | pointer _ => true
  | _ => false

/-- Whether the type points to an aggregate. -/
def isAggregatePointer : Ty → Bool
  | pointer (struct _) => true
  | _ => false

/-- The bits of a constant of the type. All types but the one-byte ones keep a word. -/
def maskBits (t : Ty) : Nat := if t.byteCount == 1 then 8 else 16

/-- The mask of a constant of the type. -/
def mask (t : Ty) : Nat := Bits.modulus t.maskBits - 1

/-- The name of a type. -/
def text : Ty → String
  | void => "void"
  | byte false => "byte"
  | byte true => "sbyte"
  | word false => "word"
  | word true => "sword"
  | pointer target => "ptr:" ++ target.text
  | struct size => "struct:" ++ toString size

/-- Reads the name of a type that is not a pointer to another one. -/
def parseSimple (name : String) : Except TypeError Ty :=
  match name with
  | "void" => .ok void
  | "byte" => .ok (byte false)
  | "sbyte" => .ok (byte true)
  | "word" => .ok (word false)
  | "sword" => .ok (word true)
  | "ptr" => .ok (pointer (byte false))
  | _ =>
    match name.toList with
    | 's' :: 't' :: 'r' :: 'u' :: 'c' :: 't' :: ':' :: size =>
      match Text.decimal 64 size with
      | .ok n => if 0 < n then .ok (struct n.toNat) else .error (.badSize (String.ofList size))
      | .error _ => .error (.badSize (String.ofList size))
    | _ => .error (.unknown name)

/-- Reads the characters of a type name. -/
def parseChars : List Char → Except TypeError Ty
  | [] => .ok void
  | 'p' :: 't' :: 'r' :: ':' :: target => (parseChars target).map pointer
  | name => parseSimple (String.ofList name)

/-- **Reading a type by name.** A refusal names the innermost part that is no type. -/
def parse (name : String) : Except TypeError Ty := parseChars name.toList

end Ty

end Octet
