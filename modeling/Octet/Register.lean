/-!
# Registers

A register is one byte of the machine, a pair of two registers holding a word, or a cell of memory
that serves as a register. A pair shares storage with its halves, so two registers *conflict* when
one is the other or a half of it, or when they have a half in common.

Registers are values and are compared as such: a register file never holds two equal ones.

## Main definitions

* `Register`, `Register.conflicts`, `Register.units` — registers and the storage they share
* `RegisterSet` — finite sets of registers, listed by number
-/

namespace Octet

/-- A register of some machine. The number orders registers in listings. -/
inductive Register where
  /-- A byte of the machine. -/
  | byte (id : Int) (name : String) (pointer : Bool)
  /-- Two registers holding the low and the high byte of a word. -/
  | pair (id : Int) (name : String) (low high : Register) (pointer : Bool)
  /-- A memory cell used as a register. -/
  | cell (id : Int) (name : String) (width : Int) (address : String) (pointer : Bool)
  deriving DecidableEq, Repr

namespace Register

/-- The number of a register. -/
def id : Register → Int
  | byte n .. => n
  | pair n .. => n
  | cell n .. => n

/-- The name of a register. -/
def name : Register → String
  | byte _ s _ => s
  | pair _ s .. => s
  | cell _ s .. => s

/-- The bytes a register holds. -/
def width : Register → Int
  | byte .. => 1
  | pair .. => 2
  | cell _ _ w .. => w

/-- Whether memory can be reached through the register. -/
def isPointer : Register → Bool
  | byte _ _ p => p
  | pair _ _ _ _ p => p
  | cell _ _ _ _ p => p

/-- Whether the register is a pair of two others. -/
def isPair : Register → Bool
  | pair .. => true
  | _ => false

/-- Whether the register is a memory cell. -/
def isCell : Register → Bool
  | cell .. => true
  | _ => false

/-- Whether the register holds a word. -/
def isWord (r : Register) : Bool := r.width == 2

/-- The memory symbol of a register that is a cell; empty for the others. -/
def address : Register → String
  | cell _ _ _ a _ => a
  | _ => ""

/-- The halves of a pair, the low one first. -/
def parts : Register → List Register
  | pair _ _ low high _ => [low, high]
  | _ => []

/-- The half of a pair that holds the byte at an offset. -/
def part? (r : Register) (offset : Int) : Option Register :=
  match r, offset with
  | pair _ _ low _ _, 0 => some low
  | pair _ _ _ high _, 1 => some high
  | _, _ => none

/-- The half holding the low byte. -/
def low? (r : Register) : Option Register := r.part? 0

/-- The half holding the high byte. -/
def high? (r : Register) : Option Register := r.part? 1

/-- Whether a register is this one or one of its halves. -/
def contains (r o : Register) : Bool := r == o || r.parts.contains o

/-- Whether two registers cannot hold two values at once. -/
def conflicts (r o : Register) : Bool :=
  r.contains o || o.contains r || r.parts.any o.contains

/-- The registers that make up this one: the halves of a pair, or the register itself. -/
def units (r : Register) : List Register := if r.isPair then r.parts else [r]

/-- The last pair of a register file that has this register as a half. -/
def pairIn? (file : List Register) (r : Register) : Option Register :=
  file.reverse.find? (·.parts.contains r)

/-- Conflict of registers that may be missing: a missing one conflicts with none. -/
def clash (r o : Option Register) : Bool :=
  match r, o with
  | some r, some o => r.conflicts o
  | _, _ => false

end Register

/-- A finite set of registers, kept in the order in which they were added. -/
structure RegisterSet where
  members : List Register
  deriving DecidableEq, Repr

namespace RegisterSet

/-- The set of no registers. -/
def empty : RegisterSet := ⟨[]⟩

instance : Inhabited RegisterSet := ⟨empty⟩

/-- Whether a register belongs to the set. -/
def contains (s : RegisterSet) (r : Register) : Bool := s.members.contains r

/-- The set with one more register. -/
def insert (s : RegisterSet) (r : Register) : RegisterSet :=
  if s.contains r then s else ⟨s.members ++ [r]⟩

/-- The set without a register. -/
def erase (s : RegisterSet) (r : Register) : RegisterSet := ⟨s.members.filter (· != r)⟩

/-- The set of the registers of a list. -/
def ofList (rs : List Register) : RegisterSet := rs.foldl insert empty

/-- The registers of either set. -/
def union (s t : RegisterSet) : RegisterSet := t.members.foldl insert s

/-- The registers of the first set that are not in the second one. -/
def diff (s t : RegisterSet) : RegisterSet := ⟨s.members.filter fun r => !t.contains r⟩

/-- Whether some register of the set conflicts with the given one. -/
def conflictsWith (s : RegisterSet) (r : Register) : Bool := s.members.any (·.conflicts r)

/-- The registers of the set by number. -/
def toList (s : RegisterSet) : List Register := s.members.mergeSort fun a b => a.id ≤ b.id

/-- The names of the registers by number, between braces. -/
def text (s : RegisterSet) : String :=
  "\x7b" ++ ", ".intercalate (s.toList.map (·.name)) ++ "\x7d"

end RegisterSet

end Octet
