import Octet.Ledger
import Octet.Location
import Octet.Target.Effect

/-!
# Code under construction

The code of one instruction is built line by line. Along with the lines the draft tracks what is
known about the machine at the current line: the constants in registers, what the zero and the sign
flag show, the registers taken by open reservations, and how far pointer registers are displaced.

A reservation of an occupied register has saved its content; the code that brings it back is part of
the reservation. Reservations are told apart by a ticket and closed in reverse order.

## Main definitions

* `Constants` — the constants known to be in registers
* `FlagState` — what the zero and the sign flag show
* `Reservation`, `Displacement` — registers taken, and pointers moved
* `Draft`, `Draft.apply` — the code under construction, and the effect of an instruction on it
* `Site`, `Work`, `Build` — where code is built, what is changed, and the monad of building
-/

namespace Octet

open Assembly

/-- The constants known to be in registers. -/
structure Constants where
  entries : List (Register × Int)
  deriving DecidableEq, Repr

namespace Constants

/-- Nothing is known. -/
def empty : Constants := ⟨[]⟩

/-- The constant in a register, if it is known. -/
def get? (k : Constants) (r : Register) : Option Int :=
  (k.entries.find? (·.1 == r)).map (·.2)

/-- The constants after a register got a new one. -/
def set (k : Constants) (r : Register) (value : Int) : Constants :=
  ⟨(r, value) :: k.entries.filter (·.1 != r)⟩

/-- The constants after a register was written. -/
def forget (k : Constants) (r : Register) : Constants :=
  ⟨k.entries.filter fun e => !e.1.conflicts r⟩

/-- The constants on which all of several states agree. -/
def agreed (k : Constants) (others : List Constants) : Constants :=
  ⟨k.entries.filter fun e => others.all fun o => o.get? e.1 == some e.2⟩

/-- The constants by the number of the register. -/
def toList (k : Constants) : List (Register × Int) :=
  k.entries.mergeSort fun a b => a.1.id ≤ b.1.id

/-- The text of what is known, by the number of the register. -/
def texts (k : Constants) : List String :=
  k.toList.map fun (r, v) => r.name ++ "=" ++ toString v

end Constants

/-- What the zero and the sign flag show: the value of a register, of a location that has the same
value, or of both. -/
structure FlagState where
  valid : Bool
  register : Option Register
  location : Option Location
  deriving DecidableEq, Repr

namespace FlagState

/-- Nothing is known about the flags. -/
def unknown : FlagState := ⟨false, none, none⟩

/-- The flags show a register. -/
def ofRegister (r : Register) : FlagState := ⟨true, some r, none⟩

/-- The flags show a location. -/
def ofLocation (l : Location) : FlagState := ⟨true, none, some l⟩

/-- What the flags show after a register was written without changing them. -/
def afterWrite (s : FlagState) (w : Option Register) : FlagState :=
  let register := s.register.filter fun r => !Register.clash (some r) w
  let location := s.location.filter fun l => !Register.clash l.touched? w
  ⟨s.valid && (register.isSome || location.isSome), register, location⟩

/-- What the flags show after a location was stored to. Memory that may have changed is
forgotten. -/
def afterStore (s : FlagState) (dest : Location) : FlagState :=
  match s.location with
  | none => s
  | some l =>
    let changed := !l.isRegister &&
      (dest.isIndirect || l.isIndirect || (dest.symbol == l.symbol && dest.overlaps l))
    if changed then ⟨s.valid && s.register.isSome, s.register, none⟩ else s

/-- Whether the flags show a location. -/
def shows (s : FlagState) (l : Location) : Bool :=
  s.valid &&
    ((l.isRegister && l.register? == s.register) ||
      match s.location with
      | some k => k.same l
      | none => false)

end FlagState

/-- A register that is held while code is built. -/
structure Reservation where
  ticket : Nat
  register : Option Register
  /-- The code that brings back the content, if it was saved. -/
  restore : Option (List Instr)
  deriving DecidableEq, Repr

/-- How far a pointer register is moved, and whose register it is. Registers into which a pointer
was loaded for one access belong to no variable. -/
structure Displacement where
  delta : Int
  owner : Option Variable
  deriving DecidableEq, Repr

/-- The code of one instruction under construction. -/
structure Draft where
  lines : List Line
  /-- The registers written. -/
  changed : RegisterSet
  /-- Whether a pair was written that the machine does not have. -/
  changedUnknown : Bool
  known : Constants
  flags : FlagState
  /-- The open reservations, the last one first. -/
  reserved : List Reservation
  tickets : Nat
  offsets : List (Register × Displacement)
  temporaries : Nat
  saves : Nat
  deriving DecidableEq, Repr

namespace Draft

/-- A draft without lines, where some constants and flags are known. -/
def start (known : Constants) (flags : FlagState) : Draft :=
  ⟨[], .empty, false, known, flags, [], 0, [], 0, 0⟩

/-- The draft with one more line. -/
def append (d : Draft) (l : Line) : Draft := { d with lines := d.lines ++ [l] }

/-- The draft after a register was written. -/
def write (d : Draft) (w : Option Register) : Draft :=
  let flags := d.flags.afterWrite w
  match w with
  | some r => { d with changed := d.changed.insert r, known := d.known.forget r, flags }
  | none => { d with changedUnknown := true, flags }

/-- **The draft after an instruction with some effect.** -/
def apply (d : Draft) (e : Effect) : Draft :=
  let d := e.writes.foldl write d
  match e.result with
  | some r => { d with flags := .ofRegister r }
  | none => if e.flags then { d with flags := .unknown } else d

/-- How far a pointer register is moved. -/
def offset (d : Draft) (p : Register) : Int :=
  match d.offsets.find? (·.1 == p) with
  | some (_, o) => o.delta
  | none => 0

/-- The draft in which a pointer register counts as not moved. -/
def dropOffset (d : Draft) (p : Register) : Draft :=
  { d with offsets := d.offsets.filter (·.1 != p) }

/-- The draft in which a pointer register is moved. -/
def setOffset (d : Draft) (p : Register) (o : Displacement) : Draft :=
  { d with offsets := (p, o) :: d.offsets.filter (·.1 != p) }

/-- The draft after a location was overwritten: a pointer there is not moved any more. -/
def forgetOffsets (d : Draft) (l : Location) : Draft :=
  let overwritten (p : Register) : Bool := match l.place with
    | .register r => Register.clash r (some p)
    | .memory name .. => p.isCell && name == p.address
    | _ => false
  { d with offsets := d.offsets.filter fun e => !overwritten e.1 }

/-- Whether an open reservation has saved something. -/
def hasSaves (d : Draft) : Bool := d.reserved.any (·.restore.isSome)

/-- The code that brings back everything that open reservations have saved, the last one first. -/
def restores (d : Draft) : List Instr := d.reserved.flatMap fun r => r.restore.getD []

end Draft

/-- Where code is built: the function with its registers, and the instruction at an address. -/
structure Site where
  target : Target
  function : Function
  registers : Assignment
  address : Nat
  inst : Option Inst

/-- The variable that the instruction writes. -/
def Site.dest? (s : Site) : Option Variable := s.inst.bind fun i => i.dest?.bind (·.direct?)

/-- What building code changes. -/
structure Work where
  ledger : Ledger
  draft : Draft

/-- Building code at a site. Work done before a fault is kept. -/
abbrev Build := ReaderT Site (ExceptT Fault (StateM Work))

namespace Build

/-- The machine. -/
def arch : Build Arch := return (← read).target.arch

/-- The accumulator of the machine. -/
def accumulator : Build Register := return (← arch).accumulator

/-- The draft. -/
def draft : Build Draft := return (← get).draft

/-- Changes the draft. -/
def modifyDraft (f : Draft → Draft) : Build Unit := modify fun w => { w with draft := f w.draft }

/-- Changes the ledger. -/
def modifyLedger (f : Ledger → Ledger) : Build Unit := modify fun w => { w with ledger := f w.ledger }

/-- A result, or a fault. -/
def ofExcept {α : Type} : Except Fault α → Build α
  | .ok a => return a
  | .error e => throw e

/-- A value that must exist, such as a register. -/
def present {α : Type} : Option α → Build α
  | some a => return a
  | none => throw .absent

/-- The name of a register, which must exist. -/
def nameOf (r : Option Register) : Build String := return (← present r).name

/-- One byte of a location. -/
def byteOf (l : Location) (i : Int) : Build Location := present (l.byte? i)

/-- The location as an operand of an instruction. -/
def argOf (l : Location) : Build Arg := ofExcept l.arg

/-! ### Emitting lines -/

/-- Appends an instruction and applies its effect. -/
def emitInstr (i : Instr) : Build Unit := do
  modifyDraft (·.append (.instr i))
  match (← arch).effect? i with
  | some e => modifyDraft (·.apply e)
  | none => throw .absent

/-- Appends an instruction given by its parts. -/
def emit (op : String) (args : List Arg) : Build Unit := emitInstr ⟨op, args⟩

/-- Appends instructions. -/
def emitAll (is : List Instr) : Build Unit := is.forM emitInstr

/-- Places a label. Constants are not known past it. -/
def label (name : String) : Build Unit :=
  modifyDraft fun d => { d.append (.label name) with known := .empty }

/-- Appends a comment. -/
def comment (text : String) : Build Unit := modifyDraft (·.append (.comment text))

/-- A label that was not used before. -/
def freshLabel : Build String := do
  let (name, ledger) := (← get).ledger.freshLabel
  modifyLedger fun _ => ledger
  return name

/-- Branches to a label of the same instruction. -/
def branchLocal (mnemonic target : String) : Build Unit := emit mnemonic [.label target]

/-- Calls a routine. -/
def call (name : String) : Build Unit := do
  modifyLedger (·.reference name)
  emit (← arch).branches.call [.label name]

/-! ### Constants and flags -/

/-- The constant in a register, if it is known. -/
def known? (r : Option Register) : Build (Option Int) := return r.bind (← draft).known.get?

/-- Records that a register holds a constant. Registers that are memory cells are not tracked. -/
def setKnown (r : Register) (value : Int) : Build Unit :=
  if r.isCell then pure () else modifyDraft fun d => { d with known := d.known.set r value }

/-- Records that the flags, which show the last result, also show a location. -/
def flagsAlso (l : Location) : Build Unit :=
  modifyDraft fun d =>
    if d.flags.valid then { d with flags := { d.flags with location := some l } } else d

/-- Records that the flags show a location. -/
def flagsFrom (l : Location) : Build Unit :=
  modifyDraft fun d => { d with flags := .ofLocation l }

/-- Whether the flags show a location. -/
def flagsShow (l : Location) : Build Bool := return (← draft).flags.shows l

/-- Forgets the displacement of pointers that were overwritten. -/
def forget (l : Location) : Build Unit := modifyDraft (·.forgetOffsets l)

/-- Updates what is tracked after a location was stored to. -/
def written (l : Location) : Build Unit := do
  forget l
  modifyDraft fun d => { d with flags := d.flags.afterStore l }

/-! ### Memory cells -/

/-- Asks for a scratch cell. -/
def scratchCell (name : String) : Build Unit := do
  let segment := (← arch).scratchSegment
  modifyLedger (·.reserve name 2 segment)

/-- A scratch location that was not used before in this instruction. -/
def temporary (width : Int) : Build Location := do
  let name := "cate_tmp" ++ toString (← draft).temporaries
  scratchCell name
  modifyDraft fun d => { d with temporaries := d.temporaries + 1 }
  return .memory name 0 width

/-- The name of a save cell. -/
def saveCellName (n : Nat) : String := "cate_save" ++ toString n

/-- A save cell that was not used before in this instruction. -/
def saveCell : Build String := do
  let name := saveCellName (← draft).saves
  scratchCell name
  modifyDraft fun d => { d with saves := d.saves + 1 }
  return name

end Build

end Octet
