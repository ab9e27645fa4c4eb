import Octet.Simulator.Memory
import Octet.Simulator.Trap

/-!
# Running code

A processor is a type of register states together with the meaning of one instruction. An
instruction changes registers and memory and says where control goes next; it knows nothing of
functions, labels and frames. Those are kept here, so that all processors share one way to call, to
return and to jump.

## Code

The code of a function is *loaded* before it is run: only machine instructions are kept, each with
the number of its line, and a label stands for the position of the first instruction at or after its
line. Comments and assembler directives are passed over. Of several functions with one name the
first gives the code, while the labels are those of the last.

## Runs

A run calls a function by name and goes on until that function has returned. Calls find a *stub*
first, then a routine of the processor, then a function of the program; stubs and routines are
executed at once and have no frame. A run is bounded by a number of instructions, which is the
argument that `run` recurses on.

## Main definitions

* `Machine`, `Exec` — registers with memory, and computations on them that may trap
* `Transfer`, `Processor` — where control goes after an instruction, and what a processor is
* `Code`, `Code.load` — functions prepared for execution
* `Simulator`, `Simulator.load?`, `Simulator.run` — a loaded program, and a run of it
-/

namespace Octet

namespace Simulator

open Assembly (Arg Instr Line)

/-! ### Instructions -/

/-- Registers and memory. -/
structure Machine (κ : Type) where
  cpu : κ
  memory : Memory

/-- A computation on registers and memory that may trap; what it did before remains. -/
abbrev Exec (κ : Type) := ExceptT Trap (StateM (Machine κ))

namespace Exec

variable {κ : Type}

/-- The registers. -/
def cpu : Exec κ κ := do return (← get).cpu

/-- Changes the registers. -/
def update (f : κ → κ) : Exec κ Unit := modify fun ⟨c, m⟩ => ⟨f c, m⟩

/-- Where a symbol lives. -/
def address (name : String) : Exec κ Int :=
  modifyGet fun ⟨c, m⟩ => match m.address name with | (addr, m) => (addr, ⟨c, m⟩)

/-- Reads a value of some bytes. -/
def read (addr width : Int) : Exec κ Int := do return (← get).memory.read addr width

/-- Writes a value of some bytes. -/
def write (addr width v : Int) : Exec κ Unit := modify fun ⟨c, m⟩ => ⟨c, m.write addr width v⟩

/-- The byte at an index, which has to lie within the memory. -/
def load (i : Int) : Exec κ Int := do
  match (← get).memory.at? i with
  | some b => return b.toNat
  | none => throw .absent

/-- Puts a byte at an index, which has to lie within the memory. -/
def store (i v : Int) : Exec κ Unit :=
  if 0 ≤ i && i < 65536 then modify fun ⟨c, m⟩ => ⟨c, m.setByte i (Memory.byteOf v)⟩
  else throw .absent

/-- An operand by its place; there has to be one. -/
def operand (i : Instr) (n : Nat) : Exec κ Arg :=
  match i.args[n]? with
  | some a => return a
  | none => throw .absent

end Exec

/-- Where control goes after an instruction. -/
inductive Transfer where
  | next
  | jump (label : String)
  | call (name : String)
  | ret
  deriving DecidableEq, Repr

/-- The label that an instruction refers to; empty without one. -/
def referred (i : Instr) : String :=
  match i.args with
  | .label name :: _ => name
  | _ => ""

/-- What a register or a flag shows. -/
inductive Reading where
  | number (n : Int)
  | flag (b : Bool)
  deriving DecidableEq, Repr

/-- A processor: what one instruction does, the routines that come with it, and its registers by
name. -/
structure Processor (κ : Type) where
  step : Instr → Exec κ Transfer
  stackPointer : κ → Int
  /-- Registers and flags by name. -/
  readings : κ → List (String × Reading)
  /-- Puts a number into the register of a name; a flag is set by any number but zero. -/
  put : κ → String → Int → κ
  routine? : String → Option (Machine κ → Machine κ)
  /-- The registers at the start of a run. -/
  enter : κ → κ

/-! ### Code -/

/-- A machine instruction and the number of its line. -/
structure Placed where
  line : Nat
  instr : Instr
  deriving DecidableEq, Repr

/-- The code of a function, prepared for execution. -/
structure Code where
  name : String
  instrs : Array Placed
  /-- Positions in `instrs`, the latest definition first. -/
  labels : List (String × Nat)
  deriving Repr

namespace Code

/-- Whether a line is executed: directives of the assembler are not. -/
def placed? : Line × Nat → Option Placed
  | (.instr i, line) => if i.op.toList.head? == some '.' then none else some ⟨line, i⟩
  | _ => none

/-- The name and the line of a label. -/
def label? : Line × Nat → Option (String × Nat)
  | (.label name, line) => some (name, line)
  | _ => none

/-- Prepares the code of `f`, with the labels of `g`. -/
def load (f g : Assembly.Routine) : Code :=
  let instrs := f.code.zipIdx.filterMap placed?
  let position (line : Nat) := instrs.countP (·.line < line)
  { name := f.name
    instrs := instrs.toArray
    labels := (g.code.zipIdx.filterMap label?).reverse.map fun (name, line) => (name, position line) }

/-- Prepares the functions of a program: the code of the first of a name, the labels of the last. -/
def ofAssembly (p : Assembly) : List Code :=
  p.functions.map fun f =>
    load f ((p.functions.reverse.find? (·.name == f.name)).getD f)

end Code

/-- A call in progress: the position of the next instruction, and the stack pointer on entry. -/
structure Frame where
  code : Code
  position : Nat
  stackPointer : Int
  deriving Repr

end Simulator

open Simulator in
/-- A program loaded for execution. -/
structure Simulator (κ : Type) where
  processor : Processor κ
  code : List Code
  /-- Routines that replace whatever else is called by their name, the latest first. -/
  stubs : List (String × (κ → κ))
  /-- How many instructions a run may execute; zero stands for the usual bound. -/
  limit : Int

namespace Simulator

variable {κ : Type}

/-! ### Runs -/

/-- The call of a stub, with the registers it found. -/
structure StubCall (κ : Type) where
  name : String
  cpu : κ

/-- Where a run stands: frames, the stubs called so far (the last first), and the machine. -/
structure Progress (κ : Type) where
  frames : List Frame
  calls : List (StubCall κ)
  machine : Machine κ

/-- **A call**: a stub, a routine, or a function, which gets a frame. -/
def call (s : Simulator κ) (name : String) (frames : List Frame) (calls : List (StubCall κ)) :
    Machine κ → Progress κ × Option Trap
  | ⟨cpu, memory⟩ =>
    match s.stubs.lookup name with
    | some set => (⟨frames, ⟨name, cpu⟩ :: calls, ⟨set cpu, memory⟩⟩, none)
    | none =>
      match s.processor.routine? name with
      | some f => (⟨frames, calls, f ⟨cpu, memory⟩⟩, none)
      | none =>
        match s.code.find? (·.name == name) with
        | some code =>
          (⟨⟨code, 0, s.processor.stackPointer cpu⟩ :: frames, calls, ⟨cpu, memory⟩⟩, none)
        | none => (⟨frames, calls, ⟨cpu, memory⟩⟩, some (.unknownCallee name))

/-- Moves control as an instruction said. The first frame is the one of the instruction. -/
def transfer (s : Simulator κ) (t : Transfer) (frame : Frame) (frames : List Frame)
    (calls : List (StubCall κ)) : Machine κ → Progress κ × Option Trap
  | ⟨cpu, memory⟩ =>
    let after := { frame with position := frame.position + 1 }
    match t with
    | .next => (⟨after :: frames, calls, ⟨cpu, memory⟩⟩, none)
    | .jump label =>
      match frame.code.labels.lookup label with
      | some position =>
        (⟨{ frame with position } :: frames, calls, ⟨cpu, memory⟩⟩, none)
      | none =>
        (⟨after :: frames, calls, ⟨cpu, memory⟩⟩, some (.unknownLabel label frame.code.name))
    | .call name => s.call name (after :: frames) calls ⟨cpu, memory⟩
    | .ret =>
      let left := s.processor.stackPointer cpu
      (⟨frames, calls, ⟨cpu, memory⟩⟩,
        if left == frame.stackPointer then none
        else some (.unbalanced frame.code.name left frame.stackPointer))

/-- **One instruction**: its effect, then where control goes. -/
def execute (s : Simulator κ) (p : Placed) (frame : Frame) (frames : List Frame)
    (calls : List (StubCall κ)) (machine : Machine κ) : Progress κ × Option Failure :=
  match (s.processor.step p.instr).run machine with
  | (.error trap, machine) =>
    (⟨frame :: frames, calls, machine⟩, some (.trapped frame.code.name p.line p.instr.op trap))
  | (.ok t, machine) =>
    match s.transfer t frame frames calls machine with
    | (progress, trap) =>
      (progress, trap.map (.trapped frame.code.name p.line p.instr.op))

/-- The end of a run: the machine, the stubs called in order, how many instructions were begun, and
why the run failed if it did. -/
structure Outcome (κ : Type) where
  machine : Machine κ
  calls : List (StubCall κ)
  steps : Nat
  failure : Option Failure

/-- Executes instructions until the last frame is left, at most `budget` of them after `steps`. -/
def runLoop (s : Simulator κ) (name : String) :
    Nat → Nat → Progress κ → Outcome κ
  | budget, steps, ⟨frames, calls, machine⟩ =>
    match frames with
    | [] => ⟨machine, calls.reverse, steps, none⟩
    | frame :: rest =>
      match frame.code.instrs[frame.position]? with
      | none => ⟨machine, calls.reverse, steps, some (.ranOff frame.code.name)⟩
      | some p =>
        match budget with
        | 0 => ⟨machine, calls.reverse, steps + 1, some (.stepLimit name)⟩
        | budget + 1 =>
          match s.execute p frame rest calls machine with
          | (progress, none) => s.runLoop name budget (steps + 1) progress
          | (progress, some failure) =>
            ⟨progress.machine, progress.calls.reverse, steps + 1, some failure⟩

/-- How many instructions a run may execute. -/
def budget (s : Simulator κ) : Nat := if s.limit == 0 then 1000000 else s.limit.toNat

/-- **A run.** Calls a function by name and executes until it has returned. -/
def run (s : Simulator κ) (name : String) (machine : Machine κ) : Outcome κ :=
  match machine with
  | ⟨cpu, memory⟩ =>
    match s.call name [] [] ⟨s.processor.enter cpu, memory⟩ with
    | (progress, none) => s.runLoop name s.budget 0 progress
    | (progress, some trap) =>
      ⟨progress.machine, progress.calls.reverse, 0, some (.notStarted trap)⟩

/-- Executes what is installed under a name, a stub or a routine, apart from any run. -/
def invoke? (s : Simulator κ) (name : String) : Machine κ → Option (Machine κ)
  | ⟨cpu, memory⟩ =>
    match s.stubs.lookup name with
    | some set => some ⟨set cpu, memory⟩
    | none => (s.processor.routine? name).map fun f => f ⟨cpu, memory⟩

/-- Installs a stub, which sets registers. -/
def addStub (s : Simulator κ) (name : String) (set : κ → κ) : Simulator κ :=
  { s with stubs := (name, set) :: s.stubs }

/-- **Loads a program**, unless its cells do not fit into memory. -/
def load? (processor : Processor κ) (cpu : κ) (base limit : Int) (p : Assembly) :
    Option (Simulator κ × Machine κ) := do
  let memory ← Memory.ofCells? base p.cells
  return (⟨processor, Code.ofAssembly p, [], limit⟩, ⟨cpu, memory⟩)

end Simulator

end Octet
