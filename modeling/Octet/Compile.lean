import Octet.Build.Script
import Octet.Liveness
import Octet.Target.Legality

/-!
# Compiling functions and programs

The code of a function is built instruction by instruction, with a prologue before the first. What
is known at the start of an instruction is what all its predecessors agree on: the instruction
before, if control can pass from there, and every earlier jump to it. If a later instruction jumps
back to it, nothing is known.

A program is compiled function by function; the ledger of the compilation carries labels, cells and
names from one function to the next, and from one program to the next.

## Main definitions

* `Built`, `Attempt` — the code of an instruction, and of a function as far as it was built
* `BuildError` — where building broke off
* `Function.build` — the code of a function
* `Program.compile` — the code of a program
-/

namespace Octet

open Assembly

/-- The code built for one instruction. The address zero is the prologue, which has none. -/
structure Built where
  address : Nat
  inst : Option Inst
  lines : List Line
  changed : RegisterSet
  changedUnknown : Bool
  /-- The constants known before the code. -/
  entry : Constants
  /-- The constants known after it. -/
  exit : Constants
  /-- What the flags show after it. -/
  flags : FlagState

namespace Built

/-- Whether control may pass on to the next instruction. -/
def fallsThrough (b : Built) : Bool :=
  match b.inst with
  | some i => i.fallsThrough
  | none => true

/-- Whether control may go to an anchor. -/
def jumpsTo (b : Built) (a : Anchor) : Bool := b.inst.bind (·.target?) == some a

end Built

/-- Where building a function broke off, and why. -/
structure BuildError where
  function : String
  address : Nat
  inst : Option Inst
  fault : Fault
  deriving DecidableEq, Repr

namespace BuildError

/-- Whether an instruction was refused, rather than an invariant broken. -/
def isRefusal (e : BuildError) : Bool :=
  match e.fault with
  | .unsupportedOperand _ => true
  | _ => false

/-- The wording of a failure. A refusal names the instruction. -/
def message (e : BuildError) : String :=
  if e.isRefusal then
    let inst := match e.inst with
      | some i => i.text
      | none => ""
    "function " ++ e.function ++ ", instruction " ++ toString e.address ++ " (" ++ inst ++ "): " ++
      e.fault.message
  else e.fault.message

end BuildError

/-- The code of a function as far as it was built, in order, with the reports of scripts. -/
structure Attempt where
  blocks : List Built
  reports : List Report
  failure : Option BuildError

namespace Build

/-- Moves pointers back at the end of an instruction. No reservation may be open. -/
def finish : Build Unit := do
  settleAll
  modifyDraft fun d => { d with offsets := [] }
  let count := (← draft).reserved.length
  if 0 < count then throw (.openReservations count (← read).address)

end Build

/-- Runs a build. -/
def Site.run {α : Type} (site : Site) (b : Build α) (w : Work) : Except Fault α × Work :=
  (b site).run.run w

/-- Runs a script, if there is one. -/
def Site.runScript (site : Site) (script : Option Script) (w : Work) :
    (List Report × Option Fault) × Work :=
  match script with
  | none => (([], none), w)
  | some s =>
    match site.run s.run w with
    | (.ok result, w) => (result, w)
    | (.error e, w) => (([], some e), w)

namespace Function

/-- Whether an instruction after an address jumps back to an anchor. -/
def jumpsBackTo (f : Function) (a : Anchor) (address : Nat) : Bool :=
  (f.code.drop address).any (·.target? == some a)

/-- The predecessors of an instruction among the code built so far, which comes last first. None are
returned where some predecessor is not built yet. -/
def predecessors (f : Function) (blocks : List Built) (address : Nat) (i : Inst) : List Built :=
  let before := blocks.head?.toList.filter (·.fallsThrough)
  match i with
  | .label a =>
    if f.jumpsBackTo a address then [] else before ++ blocks.reverse.filter (·.jumpsTo a)
  | _ => before

/-- **What is known before an instruction**: the constants on which the predecessors agree, and the
flags after the only predecessor, if it stands right before. -/
def entryState (f : Function) (blocks : List Built) (address : Nat) (i : Inst) :
    Constants × FlagState :=
  match f.predecessors blocks address i with
  | [] => (.empty, .unknown)
  | p :: ps =>
    let flags := if ps.isEmpty && p.address + 1 == address then p.flags else .unknown
    (p.exit.agreed (ps.map (·.exit)), flags)

/-- The outcome of building one instruction. -/
structure Outcome where
  block : Built
  reports : List Report
  fault : Option Fault

/-- Builds one instruction, or the prologue. A script that takes over comes first, and `act` follows
it if the script asks for it. -/
def buildAt (site : Site) (known : Constants) (flags : FlagState) (script : Option Script)
    (act : Build Unit) (ledger : Ledger) : Outcome × Ledger :=
  let block (d : Draft) : Built :=
    ⟨site.address, site.inst, d.lines, d.changed, d.changedUnknown, known, d.known, d.flags⟩
  match site.runScript script ⟨ledger, .start known flags⟩ with
  | ((reports, some e), w) => (⟨block w.draft, reports, some e⟩, w.ledger)
  | ((reports, none), w) =>
    let follows := match script with
      | some s => s.thenInstruction
      | none => true
    let rest : Build Unit := do
      if follows then act
      Build.finish
    match site.run rest w with
    | (.ok (), w) => (⟨block w.draft, reports, none⟩, w.ledger)
    | (.error e, w) => (⟨block w.draft, reports, some e⟩, w.ledger)

/-- Builds the instructions that are left. `blocks` are those built before, the last one first. -/
def buildCode (f : Function) (target : Target) (registers : Assignment)
    (scripts : Nat → Option Script) :
    List (Nat × Inst) → List Built → StateM Ledger Attempt
  | [], blocks => return ⟨blocks.reverse, [], none⟩
  | (address, i) :: rest, blocks => do
    let site : Site := ⟨target, f, registers, address, some i⟩
    let (known, flags) := f.entryState blocks address i
    let o ← modifyGet (buildAt site known flags (scripts address) (Build.instruction i))
    match o.fault with
    | some e => return ⟨blocks.reverse, o.reports, some ⟨f.name, address, some i, e⟩⟩
    | none =>
      let a ← f.buildCode target registers scripts rest (o.block :: blocks)
      return { a with reports := o.reports ++ a.reports }

/-- **The code of a function** whose variables have registers. Scripts may take over
instructions. -/
def build (f : Function) (target : Target) (registers : Assignment)
    (scripts : Nat → Option Script) : StateM Ledger Attempt := do
  let site : Site := ⟨target, f, registers, 0, none⟩
  let o ← modifyGet (buildAt site .empty .unknown none Build.prologue)
  match o.fault with
  | some e => return ⟨[], [], some ⟨f.name, 0, none, e⟩⟩
  | none => f.buildCode target registers scripts f.addressed [o.block]

end Function

/-- A function with its registers and its code, as far as it was built. -/
structure CompiledFunction where
  function : Function
  registers : Assignment
  attempt : Attempt

/-- The lines of a compiled function. -/
def CompiledFunction.routine (c : CompiledFunction) : Routine :=
  ⟨c.function.name, c.attempt.blocks.flatMap (·.lines)⟩

/-- A program as far as it was compiled. -/
structure Compilation where
  functions : List CompiledFunction
  outcome : Except BuildError Assembly

namespace Program

/-- Compiles functions until one fails. -/
def compileFunctions (target : Target) :
    List Function → StateM Ledger (List CompiledFunction × Option BuildError)
  | [] => return ([], none)
  | f :: fs => do
    let arrivals := f.signature.arrivals target.arch
    let registers := f.allocate target.arch.machine arrivals
    let attempt ← f.build target registers fun _ => none
    let c : CompiledFunction := ⟨f, registers, attempt⟩
    match attempt.failure with
    | some e => return ([c], some e)
    | none =>
      let (cs, failure) ← compileFunctions target fs
      return (c :: cs, failure)

/-- The ledger after the variables of a function that live or arrive in memory got their cells. -/
def reserveVariables (m : Arch) (l : Ledger) (c : CompiledFunction) : Ledger :=
  let arrivals := c.function.signature.arrivals m
  c.function.vars.foldl (fun l v =>
    let arrivesInMemory := match v.parameter with
      | some p => (arrivals.getD p none).isNone
      | none => false
    if (c.registers.get v).isNone || arrivesInMemory then
      l.reserve v.label v.type.byteCount .data
    else l) l

/-- The ledger after all cells of a program were asked for. -/
def reserveCells (p : Program) (m : Arch) (cs : List CompiledFunction) (l : Ledger) : Ledger :=
  let l := m.cells.foldl (fun l r => l.reserve r.address r.width m.scratchSegment) l
  let l := p.globals.foldl (fun l g => l.reserve g.label g.type.byteCount .data) l
  let l := p.strings.foldl (fun l (name, value) => l.addString name value) l
  cs.foldl (reserveVariables m) l

/-- **Compiles a program**, going on from a ledger. -/
def compile (p : Program) (target : Target) : StateM Ledger Compilation := do
  modify fun l => p.functions.foldl (fun l f => l.define f.name) l
  let (cs, failure) ← compileFunctions target p.functions
  match failure with
  | some e => return ⟨cs, .error e⟩
  | none =>
    modify (p.reserveCells target.arch cs)
    let l ← get
    return ⟨cs, .ok ⟨cs.map (·.routine), l.cells, l.externals⟩⟩

end Program

end Octet
