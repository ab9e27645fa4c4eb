import Octet.Allocation
import Octet.Assembly.Dialect
import Octet.Target.Registers

/-!
# Targets

A target is a machine together with the one number that can be chosen, the bound of the constants
that are added by counting. This module holds what is fixed for each machine: the roles of its
registers, the calling convention, the registers of the runtime routines, and the mnemonics of
control transfers.

## Main definitions

* `Arch`, `Target` — machines, and machines with their settings
* `Arch.pool` — the registers offered to variables
* `Arch.arrivals`, `Arch.result` — the calling convention
* `Arch.runtime`, `Arch.branches` — runtime routines and control transfers
-/

namespace Octet

/-- A machine. -/
inductive Arch where
  | mos6502
  | wdc65816
  | i8080
  deriving DecidableEq, Repr

/-- The roles that registers have in the runtime routines. -/
structure Runtime where
  /-- The count of a shift. -/
  counter : Register
  byteValue : Register
  wordValue : Register
  /-- The second factor of a multiplication. -/
  byteOperand : Register
  wordOperand : Register
  /-- What the names of the routines for words end in. -/
  suffix : String

/-- The mnemonics of control transfers. -/
structure Branches where
  jump : String
  call : String
  ret : String
  eq : String
  ne : String
  minus : String
  plus : String
  /-- Branches with their opposites. -/
  opposites : List (String × String)

namespace Arch

/-- All machines. -/
def all : List Arch := [mos6502, wdc65816, i8080]

/-- The name of a machine. -/
def name : Arch → String
  | mos6502 => "mos6502"
  | wdc65816 => "wdc65816"
  | i8080 => "i8080"

/-- The machine with a name. -/
def parse? (s : String) : Option Arch := all.find? (·.name == s)

/-- The dialect in which code for the machine is written. -/
def dialect : Arch → Dialect
  | i8080 => .m80
  | _ => .ca65

/-- The bound of the constants that are added or subtracted by counting, unless another is
chosen. -/
def threshold : Arch → Nat
  | i8080 => 4
  | _ => 3

/-! ### Registers -/

/-- All registers. -/
def registers : Arch → List Register
  | i8080 => Intel.all
  | _ => Mos.all

/-- The registers that are memory cells. -/
def cells : Arch → List Register
  | i8080 => []
  | _ => Mos.cells

/-- The register in which bytes are computed. -/
def accumulator : Arch → Register
  | i8080 => Intel.a
  | _ => Mos.a

/-- The registers into which a pointer is loaded for one access. -/
def pointerScratch : Arch → List Register
  | i8080 => [Intel.hl]
  | _ => [Mos.p0, Mos.p1]

/-- The registers in which a word can be shifted. -/
def shiftScratch : Arch → List Register
  | i8080 => [Intel.hl, Intel.de, Intel.bc]
  | _ => [Mos.w0]

/-- The register with a name. -/
def register? (m : Arch) (name : String) : Option Register := m.registers.find? (·.name == name)

/-- The byte registers offered to variables, the preferred ones first. -/
def bytePool : Arch → Bool → List Register
  | i8080, true => [Intel.a, Intel.e, Intel.d, Intel.c, Intel.b]
  | i8080, false => [Intel.e, Intel.d, Intel.c, Intel.b]
  | _, true => [Mos.a, Mos.x, Mos.y]
  | _, false => [Mos.x, Mos.y] ++ Mos.zeroBytes

/-- The word registers offered to variables, the preferred ones first. -/
def wordPool : Arch → Bool → List Register
  | i8080, true => [Intel.hl, Intel.de, Intel.bc]
  | i8080, false => [Intel.bc, Intel.de, Intel.hl]
  | _, true => Mos.ax :: Mos.zeroWords
  | _, false => Mos.zeroWords

/-- The registers offered to a variable. Pointers are offered those first through which memory can
be reached. -/
def pool (m : Arch) (t : Ty) (short : Bool) : List Register :=
  let offered := match t.byteCount with
    | 1 => m.bytePool short
    | 2 => m.wordPool short
    | _ => []
  if t.isPointer then
    offered.filter (·.isPointer) ++ offered.filter fun r => !r.isPointer
  else offered

/-! ### Calling convention -/

/-- The registers in which bytes are passed. -/
def byteParameters : Arch → List Register
  | i8080 => [Intel.a, Intel.e, Intel.c]
  | _ => [Mos.a, Mos.y]

/-- The registers in which words are passed. -/
def wordParameters : Arch → List Register
  | i8080 => [Intel.hl, Intel.de, Intel.bc]
  | _ => [Mos.ax]

/-- The arrival registers of parameters when some registers are used already. -/
def arrivalsAfter (m : Arch) : RegisterSet → List Ty → List (Option Register)
  | _, [] => []
  | used, t :: ts =>
    let candidates := if t.isWord then m.wordParameters else m.byteParameters
    match candidates.find? fun r => !used.conflictsWith r with
    | some r => some r :: m.arrivalsAfter (used.insert r) ts
    | none => none :: m.arrivalsAfter used ts

/-- **The calling convention.** Each parameter arrives in the first register for its width that does
not conflict with an earlier one; where there is none it travels in memory. -/
def arrivals (m : Arch) (ts : List Ty) : List (Option Register) := m.arrivalsAfter .empty ts

/-- The register in which a value of a type is returned. -/
def result (m : Arch) (t : Ty) : Register :=
  match m, t.isWord with
  | i8080, true => Intel.hl
  | i8080, false => Intel.a
  | _, true => Mos.ax
  | _, false => Mos.a

/-! ### Runtime routines and control transfers -/

/-- The registers of the runtime routines. -/
def runtime : Arch → Runtime
  | i8080 => ⟨Intel.c, Intel.a, Intel.hl, Intel.e, Intel.de, "Hl"⟩
  | _ => ⟨Mos.y, Mos.a, Mos.ax, Mos.x, Mos.w1, "Ax"⟩

/-- The runtime routine of a kind for values of a width. -/
def routine (m : Arch) (kind : String) (width : Int) : String :=
  "cate." ++ kind ++ if width == 2 then m.runtime.suffix else "A"

/-- The mnemonics of control transfers. -/
def branches : Arch → Branches
  | i8080 =>
    ⟨"jmp", "call", "ret", "jz", "jnz", "jm", "jp",
      [("jz", "jnz"), ("jnz", "jz"), ("jm", "jp"), ("jp", "jm"), ("jc", "jnc"), ("jnc", "jc"),
        ("jpe", "jpo"), ("jpo", "jpe")]⟩
  | _ =>
    ⟨"jmp", "jsr", "rts", "beq", "bne", "bmi", "bpl",
      [("beq", "bne"), ("bne", "beq"), ("bmi", "bpl"), ("bpl", "bmi"), ("bcs", "bcc"),
        ("bcc", "bcs"), ("bvs", "bvc"), ("bvc", "bvs")]⟩

/-- The segment of scratch and save cells. -/
def scratchSegment : Arch → Assembly.Segment
  | i8080 => .data
  | _ => .zeroPage

end Arch

/-- A machine with its settings. -/
structure Target where
  arch : Arch
  /-- The bound of the constants that are added or subtracted by counting. -/
  threshold : Int
  deriving DecidableEq, Repr

/-- A machine with its usual settings. -/
def Arch.target (m : Arch) : Target := ⟨m, m.threshold⟩

/-- Whether the register is the accumulator or contains it. -/
def Arch.isAccumulator (m : Arch) (r : Register) : Bool := r.conflicts m.accumulator

/-- The registers in which the parameters of a signature arrive. -/
def Signature.arrivals (s : Signature) (m : Arch) : List (Option Register) :=
  m.arrivals (s.params.map (·.type))

end Octet
