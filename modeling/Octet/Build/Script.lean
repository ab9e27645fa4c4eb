import Octet.Build.Select

/-!
# Scripts of building steps

A script takes over the building of one instruction. It is a list of single steps: reserving
registers, moving values, applying operations, branching. Each step reports the lines that it
emitted and what it answered. A step that faults ends the script; what it emitted until then is
kept.

Reservations, locations and pointers that a step obtains can be kept under a name for later steps.

## Main definitions

* `Spot`, `Step`, `Script` — locations in a script, steps and scripts
* `Answer`, `Report` — what a step answers, and its report
* `Script.run` — running a script
-/

namespace Octet

open Assembly

/-- An operand of the instruction that a script takes over. -/
inductive OperandRole where
  | dest
  | left
  | right
  /-- An argument of a call, by its place. -/
  | arg (n : Int)
  deriving DecidableEq, Repr

/-- The operand with a role. -/
def Inst.operandAt? (i : Inst) : OperandRole → Option Operand
  | .dest => i.dest?
  | .left => i.left?
  | .right => i.right?
  | .arg n => n.toNat?.bind (i.args[·]?)

/-- Where the location of a script comes from. -/
inductive SpotSource where
  | given (l : Location)
  /-- An operand of the instruction. -/
  | operand (role : OperandRole)
  /-- A location kept under a name. -/
  | saved (name : String)
  deriving DecidableEq, Repr

/-- A location of a script: it can be made signed, and one byte of it taken. -/
structure Spot where
  source : SpotSource
  signed : Bool
  byte : Option Int
  deriving DecidableEq, Repr

/-- A step of a script. What is obtained under `keep` is kept under that name. -/
inductive Step where
  | reserve (r : Register) (keep : String)
  | reserveLoad (r : Register) (l : Spot) (keep : String)
  | reserveFor (r : Register) (l : Spot) (keep : String)
  | reserveAny (rs : List Register) (avoid : List Spot) (keep : String)
  | pin (r : Register) (keep : String)
  | release (name : String)
  | inUse (r : Register)
  | loadByte (r : Register) (l : Spot)
  | storeByte (r : Register) (l : Spot)
  | loadWord (r : Register) (l : Spot)
  | storeWord (r : Register) (l : Spot)
  | moveByte (dest source : Spot)
  | moveWord (dest source : Spot)
  | move (dest source : Spot)
  | loadTwo (r : Register) (a : Spot) (s : Register) (b : Spot)
  | operate (op : Option BinaryOp) (carry : Bool) (l : Spot)
  | nativeBinary (op : Option BinaryOp) (dest left right : Spot)
  | nativeMove (dest source : Spot)
  | stepWord (l : Spot) (down : Bool)
  | shiftWord (l : Spot) (left signed : Bool)
  | stepByte (l : Spot) (down : Bool)
  | testByte (l : Spot)
  | shiftByteInPlace (l : Spot) (left signed : Bool)
  | shiftAccumulator (left signed : Bool)
  | signFill
  | complement
  | adjust (r : Register) (delta : Int)
  | inWindow (index : Int)
  | compare (width : Int) (cond : Cond) (signed : Bool) (left right : Spot) (target : String)
  | temporary (width : Int) (keep : String)
  | toTemporary (l : Spot) (keep : String)
  | toTemporaryByte (r : Register) (keep : String)
  | locate (l : Spot) (keep : String)
  | locateOperand (o : Operand) (keep : String)
  | saveCell
  | emit (i : Instr)
  | label (name : String)
  | freshLabel
  | comment (text : String)
  | known (r : Register)
  | setKnown (r : Register) (value : Int)
  | flagsAlso (l : Spot)
  | flagsFrom (l : Spot)
  | flagsShow (l : Spot)
  | branch (mnemonic target : String)
  | branchLocal (mnemonic target : String)
  | jump (target : String)
  | call (name : String)
  | pointer (l : Spot) (keep : String)
  | done (name : String)
  | dest
  deriving DecidableEq, Repr

/-- The steps that take over an instruction. The instruction's own code follows if asked for. -/
structure Script where
  steps : List Step
  thenInstruction : Bool
  deriving DecidableEq, Repr

/-- What a step answers. -/
inductive Answer where
  | nothing
  | flag (b : Bool)
  | number (n : Int)
  | name (s : String)
  | reservation (r : Reservation)
  | location (l : Location)
  | pointer (p : Reached)
  deriving DecidableEq, Repr

/-- The report of a step. -/
structure Report where
  address : Nat
  lines : List Line
  result : Except Fault Answer

/-- What steps have kept under names. -/
structure Kept where
  reservations : List (String × Reservation)
  locations : List (String × Location)
  pointers : List (String × Reached)

/-- Nothing is kept. -/
def Kept.empty : Kept := ⟨[], [], []⟩

/-- Building within a script. -/
abbrev Scripted := StateT Kept Build

namespace Scripted

/-- Keeps a reservation and answers it. -/
def keepReservation (name : String) (r : Reservation) : Scripted Answer := do
  modify fun k => { k with reservations := (name, r) :: k.reservations }
  return .reservation r

/-- Keeps a location and answers it. -/
def keepLocation (name : String) (l : Location) : Scripted Answer := do
  modify fun k => { k with locations := (name, l) :: k.locations }
  return .location l

/-- Does something that has no answer. -/
def quietly (act : Build Unit) : Scripted Answer := do
  act
  return .nothing

/-- Asks a question. -/
def ask (question : Build Bool) : Scripted Answer := return .flag (← question)

/-- The location of a spot. -/
def resolve (s : Spot) : Scripted Location := do
  let l ← match s.source with
    | .given l => pure l
    | .saved name => pure (((← get).locations.lookup name).getD .none)
    | .operand role =>
      match (← read).inst.bind (·.operandAt? role) with
      | some o => Build.locate o
      | none => throw Fault.absent
  let l := if s.signed then { l with signed := true } else l
  match s.byte with
  | some i => Build.byteOf l i
  | none => return l

end Scripted

open Scripted in
/-- Runs one step. -/
def Step.run : Step → Scripted Answer
  | .reserve r keep => do keepReservation keep (← Build.reserve r)
  | .reserveLoad r l keep => do keepReservation keep (← Build.reserveLoad r (← resolve l))
  | .reserveFor r l keep => do keepReservation keep (← Build.reserveFor r (← resolve l))
  | .reserveAny rs avoid keep => do
    let (_, res) ← Build.reserveAny rs (← avoid.mapM resolve)
    keepReservation keep res
  | .pin r keep => do keepReservation keep (← Build.pin (some r))
  | .release name => do
    match (← get).reservations.lookup name with
    | some r => quietly (Build.release r)
    | none => throw Fault.absent
  | .inUse r => ask (Build.inUse r)
  | .loadByte r l => do quietly (Build.loadByte (some r) (← resolve l))
  | .storeByte r l => do quietly (Build.storeByte (some r) (← resolve l))
  | .loadWord r l => do quietly (Build.moveWord (.ofRegister r) (← resolve l))
  | .storeWord r l => do quietly (Build.moveWord (← resolve l) (.ofRegister r))
  | .moveByte d s => do quietly (Build.moveByte (← resolve d) (← resolve s))
  | .moveWord d s => do quietly (Build.moveWord (← resolve d) (← resolve s))
  | .move d s => do quietly (Build.move (← resolve d) (← resolve s))
  | .loadTwo r a s b => do quietly (Build.loadTwo r (← resolve a) s (← resolve b))
  | .operate op carry l => do
    let l ← resolve l
    match op.bind ((← Build.arch).operation? · carry) with
    | some operation => do
      Build.operate operation l
      return .flag true
    | none => return .flag false
  | .nativeBinary op d a b => do
    let d ← resolve d
    let a ← resolve a
    let b ← resolve b
    match op with
    | some op => ask (Build.nativeBinary op d a b)
    | none => return .flag false
  | .nativeMove d s => do ask (Build.nativeMove (← resolve d) (← resolve s))
  | .stepWord l down => do ask (Build.stepWord (← resolve l) down)
  | .shiftWord l left signed => do ask (Build.shiftWordInPlace (← resolve l) left signed)
  | .stepByte l down => do ask (Build.stepByte (← resolve l) down)
  | .testByte l => do ask (Build.testInPlace (← resolve l))
  | .shiftByteInPlace l left signed => do ask (Build.shiftByteInPlace (← resolve l) left signed)
  | .shiftAccumulator left signed => quietly (Build.shiftAccumulator left signed)
  | .signFill => quietly Build.signFill
  | .complement => quietly Build.complement
  | .adjust r delta => quietly do
    Build.emitAll (← Build.ofExcept ((← Build.arch).adjustCode r delta))
  | .inWindow index => ask do return (← Build.arch).inWindow index
  | .compare width cond signed a b target => do
    quietly (Build.compareLocated cond signed width (← resolve a) (← resolve b) target)
  | .temporary width keep => do keepLocation keep (← Build.temporary width)
  | .toTemporary l keep => do keepLocation keep (← Build.toTemporary (← resolve l))
  | .toTemporaryByte r keep => do keepLocation keep (← Build.toTemporaryByte (some r))
  | .locate l keep => do keepLocation keep (← resolve l)
  | .locateOperand o keep => do keepLocation keep (← Build.locate o)
  | .saveCell => return .name (← Build.saveCell)
  | .emit i => quietly (Build.emitInstr i)
  | .label name => quietly (Build.label name)
  | .freshLabel => return .name (← Build.freshLabel)
  | .comment text => quietly (Build.comment text)
  | .known r => do
    match ← Build.known? (some r) with
    | some v => return .number v
    | none => return .nothing
  | .setKnown r v => quietly (Build.setKnown r v)
  | .flagsAlso l => do quietly (Build.flagsAlso (← resolve l))
  | .flagsFrom l => do quietly (Build.flagsFrom (← resolve l))
  | .flagsShow l => do ask (Build.flagsShow (← resolve l))
  | .branch op target => quietly (Build.branch op target)
  | .branchLocal op target => quietly (Build.branchLocal op target)
  | .jump target => quietly (Build.jump target)
  | .call name => quietly (Build.call name)
  | .pointer l keep => do
    let p ← Build.pointer (← resolve l)
    modify fun k => { k with pointers := (keep, p) :: k.pointers }
    return .pointer p
  | .done name => do
    match (← get).pointers.lookup name with
    | some p => quietly (Build.done p)
    | none => throw Fault.absent
  | .dest => do
    match (← read).dest? with
    | some v => return .name v.name
    | none => return .nothing

/-- Runs steps until one faults. The reports come with the fault, if there was one. -/
def Script.runSteps : List Step → Kept → Build (List Report × Option Fault)
  | [], _ => return ([], none)
  | s :: steps, kept => do
    let before := (← Build.draft).lines.length
    let outcome ← tryCatch (Except.ok <$> s.run kept) fun e => return .error e
    let lines := (← Build.draft).lines.drop before
    let address := (← read).address
    match outcome with
    | .ok (answer, kept) =>
      let (reports, fault) ← runSteps steps kept
      return (⟨address, lines, .ok answer⟩ :: reports, fault)
    | .error e => return ([⟨address, lines, .error e⟩], some e)

/-- **Runs a script.** -/
def Script.run (s : Script) : Build (List Report × Option Fault) := Script.runSteps s.steps .empty

end Octet
