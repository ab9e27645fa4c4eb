import Octet.Allocation
import Octet.Assembly
import Octet.Fault

/-!
# Locations

An operand that is about to be used is at some place: it is a constant, the address of a symbol, a
register, memory at a symbol, or memory behind a pointer. Memory at a symbol may be the home of a
register that is a memory cell. A location is a place with a width in bytes and a sign.

A byte register that is asked for a word has no halves. The halves of such a location are places in
a register that does not exist; code that needs the name of one breaks off.

## Main definitions

* `Place`, `Location` — places, and places with a width and a sign
* `Location.byte?` — one byte of a location
* `Location.same`, `Location.uses`, `Location.clobbers` — sameness, use of a register, interference
* `Location.arg` — the location as an operand of an instruction
* `Operand.located` — where an operand is, once registers are assigned
-/

namespace Octet

open Assembly

/-- Where a value is. -/
inductive Place where
  | none
  | immediate (value : Int)
  /-- The address of a symbol, or one byte of it. -/
  | symbol (name : String) (offset : Int) (part : Part)
  /-- A register, or the missing half of one. -/
  | register (r : Option Register)
  /-- Memory at a symbol, which may be the home of a register. -/
  | memory (symbol : String) (offset : Int) (home : Option Register)
  /-- Memory behind a pointer variable. The variable has the register `base`, or none. -/
  | indirect (pointer : Variable) (base : Option Register) (offset : Int)
  deriving DecidableEq, Repr

/-- A place with a width in bytes and a sign. -/
structure Location where
  place : Place
  width : Int
  signed : Bool
  deriving DecidableEq, Repr

namespace Location

/-- No location. -/
def none : Location := ⟨.none, 0, false⟩

/-- A constant, cut to a word if it is two bytes wide and else to a byte. -/
def immediate (value width : Int) : Location :=
  ⟨.immediate (Bits.low (if width == 2 then 16 else 8) value), width, false⟩

/-- The location of a register, which is memory if the register is a memory cell. -/
def ofRegister (r : Register) : Location :=
  if r.isCell then ⟨.memory r.address 0 (some r), r.width, false⟩
  else ⟨.register (some r), r.width, false⟩

/-- Memory at a symbol. -/
def memory (symbol : String) (offset width : Int) : Location :=
  ⟨.memory symbol offset .none, width, false⟩

/-! ### Reading a location -/

/-- The value of a constant. -/
def constant? (l : Location) : Option Int :=
  match l.place with
  | .immediate v => some v
  | _ => .none

/-- Whether the location is a constant or an address. -/
def isImmediate (l : Location) : Bool :=
  match l.place with
  | .immediate _ | .symbol .. => true
  | _ => false

/-- Whether the location is the constant zero. -/
def isZero (l : Location) : Bool := l.constant? == some 0

/-- Whether the location is in a machine register. -/
def isRegister (l : Location) : Bool :=
  match l.place with
  | .register _ => true
  | _ => false

/-- Whether the location is memory at a symbol. -/
def isMemory (l : Location) : Bool :=
  match l.place with
  | .memory .. => true
  | _ => false

/-- Whether the location is memory behind a pointer. -/
def isIndirect (l : Location) : Bool :=
  match l.place with
  | .indirect .. => true
  | _ => false

/-- Whether the location is exactly a machine register. -/
def isIn (l : Location) (r : Register) : Bool := l.place == .register (some r)

/-- The register of the location: the one it is in, or the one whose home it is. -/
def register? (l : Location) : Option Register :=
  match l.place with
  | .register r => r
  | .memory _ _ home => home
  | _ => .none

/-- The register that reading or writing the location touches: the one it is in, the one whose home
it is, or the pointer. -/
def touched? (l : Location) : Option Register :=
  match l.place with
  | .register r => r
  | .memory _ _ home => home
  | .indirect _ base _ => base
  | _ => .none

/-- The symbol of the location; empty if it has none. -/
def symbol (l : Location) : String :=
  match l.place with
  | .symbol name .. => name
  | .memory name .. => name
  | _ => ""

/-- The offset of the location. -/
def offset (l : Location) : Int :=
  match l.place with
  | .symbol _ o _ => o
  | .memory _ o _ => o
  | .indirect _ _ o => o
  | _ => 0

/-- **One byte of a location.** A location of one byte has itself as low byte, and zero above. There
is none for the halves of a missing register, or of a constant when `i` bytes are no number of
bits. -/
def byte? (l : Location) (i : Int) : Option Location :=
  if l.width == 1 then some (if i == 0 then l else immediate 0 1)
  else
    let signed := l.signed && i == 1
    match l.place with
    | .none => some ⟨.none, 1, signed⟩
    | .immediate v => do
      let bits ← Bits.count? i
      let shifted := if bits < 64 then Bits.shr v bits else 0
      return ⟨.immediate (Bits.low 8 shifted), 1, signed⟩
    | .symbol name o _ => some ⟨.symbol name o (if i == 1 then .high else .low), 1, signed⟩
    | .register (some r) => some ⟨.register (r.part? i), 1, signed⟩
    | .register .none => .none
    | .memory name o home =>
      let home := home.filter fun r => !r.isWord
      some ⟨.memory name (Bits.wrap (o + i)) home, 1, signed⟩
    | .indirect p base o => some ⟨.indirect p base (Bits.wrap (o + i)), 1, signed⟩

/-! ### Comparing locations -/

/-- Whether two locations are the same storage. -/
def same (l k : Location) : Bool :=
  l.width == k.width &&
    match l.place, k.place with
    | .register r, .register s => r == s
    | .memory a o _, .memory b p _ => a == b && o == p
    | .indirect v _ o, .indirect w _ p => v == w && o == p
    | _, _ => false

/-- Whether reading or writing the location touches a register. -/
def uses (l : Location) (r : Register) : Bool := Register.clash l.touched? (some r)

/-- Whether two pieces of memory at the same symbol have a byte in common. -/
def overlaps (l k : Location) : Bool :=
  l.offset < Bits.wrap (k.offset + k.width) && k.offset < Bits.wrap (l.offset + l.width)

/-- Whether writing the first location changes the value of the second one, or the pointer through
which it is reached. -/
def clobbers (dest source : Location) : Bool :=
  match dest.place, source.place with
  | .register r, _ => Register.clash source.touched? r
  | .memory name .., .memory name' .. => name == name' && dest.overlaps source
  | .memory name o _, .indirect p base _ =>
    let reaches := o < 2 && 0 < Bits.wrap (o + dest.width)
    match base with
    | .none => name == p.label && reaches
    | some r => r.isCell && name == r.address && reaches
  | _, _ => false

/-! ### Writing a location -/

/-- The text of a location. A missing register has none. -/
def text? (l : Location) : Option String :=
  match l.place with
  | .none => some "none"
  | .immediate v => some ("#" ++ toString v)
  | .symbol name o _ => some ("#" ++ addressText name o)
  | .register r => r.map (·.name)
  | .memory name o _ => some (addressText name o)
  | .indirect p _ o => some ("*" ++ p.name ++ "+" ++ toString o)

/-- The text of a location, empty for a missing register. -/
def text (l : Location) : String := l.text?.getD ""

/-- The location as an operand of an instruction, if it is one. -/
def arg (l : Location) : Except Fault Arg :=
  match l.place with
  | .immediate v => .ok (.imm v)
  | .symbol name o part => .ok (.symbol name o part)
  | .memory name o _ => .ok (.mem name o)
  | .register (some r) => .ok (.reg r.name)
  | .register .none => .error .absent
  | .none | .indirect .. => .error (.noDirectOperand l.text)

end Location

/-- **Where an operand is.** A variable is in its register or in memory; a part of one is in the
half at its offset, or in the memory there. -/
def Operand.located (o : Operand) (registers : Assignment) : Location :=
  let width : Int := o.type.byteCount
  let signed := o.type.signed
  match o with
  | .int _ value => { Location.immediate value width with signed }
  | .address name offset _ => ⟨.symbol name offset .whole, 2, false⟩
  | .string name _ => ⟨.symbol name 0 .whole, 2, false⟩
  | .addressByte name offset high =>
    ⟨.symbol name offset (if high then .high else .low), 1, false⟩
  | .deref p offset _ => ⟨.indirect p (registers.get p) offset, width, signed⟩
  | .var v offset _ =>
    match registers.get v with
    | none => ⟨.memory v.label offset none, width, signed⟩
    | some r =>
      if r.isCell then
        let home := if offset == 0 && width == r.width then some r else none
        ⟨.memory r.address offset home, width, signed⟩
      else
        let part := if width < r.width then r.part? offset else some r
        ⟨.register part, width, signed⟩

end Octet
